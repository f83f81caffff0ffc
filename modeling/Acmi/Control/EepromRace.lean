import Acmi.Control.Handlers
import Acmi.Lib.Interleave
import Mathlib.Tactic.IntervalCases
import Mathlib.Data.List.Induction

/-!
# EEPROM updates of concurrent clients

`eeprom_settings` stores its four bytes one by one, each as a `WREN` command followed by a
`WRITE` command. The EEPROM has one write-enable latch: `WREN` sets it, and a `WRITE` is
carried out only when it is set, and clears it. Here the `write_artix_eeprom` calls of any
number of handlers are interleaved, each call being one step.

A `WRITE` that comes directly after another handler's `WRITE` finds the latch cleared, and
its byte is lost. `holds_iff` says that this is the only way to lose one: when all calls have
returned, every message's range holds its data exactly when no `WRITE` came directly after
another, except to store what was there anyway.
-/

namespace Acmi.Control

open Acmi.Lib Acmi.Psc

/-! ## The EEPROM -/

/-- The contents and the write-enable latch. -/
structure Eeprom where
  mem : BitVec 16 → Byte
  wel : Bool

/-- The fields of a command word. -/
def opcode (word : BitVec 32) : Byte := word.extractLsb' 24 8
def wordAddr (word : BitVec 32) : BitVec 16 := word.extractLsb' 8 16
def wordData (word : BitVec 32) : Byte := word.extractLsb' 0 8

/-- The EEPROM is handed a command word. -/
def Eeprom.command (e : Eeprom) (word : BitVec 32) : Eeprom :=
  if opcode word = 6 then { e with wel := true }
  else if opcode word = 2 then
    if e.wel then ⟨Function.update e.mem (wordAddr word) (wordData word), false⟩ else e
  else e

/-- The arguments of a `write_artix_eeprom` call. -/
abbrev EepromCall := BitVec 32 × BitVec 32

/-- One `write_artix_eeprom` call, by whichever handler. -/
def Eeprom.call (e : Eeprom) (_ : Nat) (c : EepromCall) : Eeprom :=
  if c.1 = eepromWrdata then e.command c.2 else e

/-- The handlers at work: the calls each still has to make, and the EEPROM. -/
abbrev EepromStep : Threads Nat EepromCall Eeprom → Nat → Option (Threads Nat EepromCall Eeprom) :=
  Threads.step Eeprom.call

/-- `eeprom_addr` and `msg_data` of `eeprom_settings`. -/
def addrOf (msg : Mem) : BitVec 32 := htonl (msg.load32 0)
def dataOf (msg : Mem) : BitVec 32 := htonl (msg.load32 4)

/-- The calls of `eeprom_settings` for a message. -/
def callsOf (msg : Mem) : List EepromCall := eepromCalls (addrOf msg) (dataOf msg)

/-- Every handler has its messages before it. -/
def eepromStart (msgs : Nat → List Mem) (e : Eeprom) : Threads Nat EepromCall Eeprom :=
  ⟨fun i => (msgs i).flatMap callsOf, e⟩

/-! ## The calls of a message -/

/-- The two calls for byte `k` of a message. -/
def wrenCall : EepromCall := (eepromWrdata, eepromOpcodeWren <<< 24)

def storeCall (msg : Mem) (k : Nat) : EepromCall :=
  (eepromWrdata, (eepromOpcodeWrite <<< 24) |||
    ((addrOf msg + BitVec.ofNat 32 k) <<< 8) ||| (msg (4 + k)).setWidth 32)

/-- Masking a byte and shifting it down. -/
theorem shift_mask (d : BitVec 32) (n : Nat) :
    (d &&& (0xFF#32 <<< n)) >>> n = (d.extractLsb' n 8).setWidth 32 := by
  have hmask : ∀ i, i < 32 → (0xFF#32).getLsbD i = decide (i < 8) := by decide
  apply BitVec.eq_of_getLsbD_eq
  intro i hi
  rw [BitVec.getLsbD_ushiftRight, BitVec.getLsbD_and, BitVec.getLsbD_shiftLeft,
    BitVec.getLsbD_setWidth, BitVec.getLsbD_extractLsb', Nat.add_sub_cancel_left, hmask i hi]
  by_cases hn : n + i < 32
  · have hlt : ¬ n + i < n := by omega
    simp [hn, hi, hlt, Bool.and_comm]
  · rw [BitVec.getLsbD_of_ge d (n + i) (by omega)]
    simp

/-- The bytes of a message word as the masks of `eeprom_settings` take them out. -/
theorem dataOf_bytes (msg : Mem) :
    (dataOf msg &&& 0xFF000000) >>> 24 = (msg 4).setWidth 32 ∧
    (dataOf msg &&& 0x00FF0000) >>> 16 = (msg 5).setWidth 32 ∧
    (dataOf msg &&& 0x0000FF00) >>> 8 = (msg 6).setWidth 32 ∧
    dataOf msg &&& 0x000000FF = (msg 7).setWidth 32 := by
  have h := be32_append (msg 4) (msg 5) (msg 6) (msg 7)
  rw [← htonl_load32 msg 4] at h
  simp only [be32, List.cons.injEq, and_true] at h
  obtain ⟨h3, h2, h1, h0⟩ := h
  refine ⟨?_, ?_, ?_, ?_⟩
  · rw [← h3]
    exact shift_mask _ 24
  · rw [← h2]
    exact shift_mask _ 16
  · rw [← h1]
    exact shift_mask _ 8
  · rw [← h0, ← shift_mask _ 0]
    simp [dataOf]

/-- **The calls of a message**: `WREN` and `WRITE` for its four bytes in turn. -/
theorem callsOf_eq (msg : Mem) :
    callsOf msg = (List.range 4).flatMap fun k => [wrenCall, storeCall msg k] := by
  obtain ⟨h3, h2, h1, h0⟩ := dataOf_bytes msg
  unfold callsOf eepromCalls eepromByte
  rw [h3, h2, h1, h0]
  simp [List.range_succ, wrenCall, storeCall]

/-- The call is a `WRITE` to address `a`. -/
def WritesTo (a : Nat) (c : EepromCall) : Prop :=
  opcode c.2 = 2 ∧ (wordAddr c.2).toNat = a

instance (a : Nat) (c : EepromCall) : Decidable (WritesTo a c) :=
  inferInstanceAs (Decidable (_ ∧ _))

/-- A number below `2^n` has no bit from `n` on. -/
theorem getLsbD_of_lt {x : BitVec 32} {n i : Nat} (h : x.toNat < 2 ^ n) (hi : n ≤ i) :
    x.getLsbD i = false :=
  Nat.testBit_lt_two_pow (Nat.lt_of_lt_of_le h (Nat.pow_le_pow_right (by omega) hi))

/-- The fields of a `WRITE` command word, when address and data fit theirs. -/
theorem store_fields {addr data : BitVec 32} (ha : addr.toNat < 2 ^ 16) (hd : data.toNat < 2 ^ 8) :
    opcode ((eepromOpcodeWrite <<< 24) ||| (addr <<< 8) ||| data) = 2 ∧
    wordAddr ((eepromOpcodeWrite <<< 24) ||| (addr <<< 8) ||| data) = addr.setWidth 16 ∧
    wordData ((eepromOpcodeWrite <<< 24) ||| (addr <<< 8) ||| data) = data.setWidth 8 := by
  have hbit : ∀ i, i < 32 → ((eepromOpcodeWrite <<< 24) ||| (addr <<< 8) ||| data).getLsbD i =
      (decide (i = 25) || (!decide (i < 8) && addr.getLsbD (i - 8)) || data.getLsbD i) := by
    intro i hi
    have hop : ∀ i, i < 32 → (eepromOpcodeWrite <<< 24).getLsbD i = decide (i = 25) := by decide
    rw [BitVec.getLsbD_or, BitVec.getLsbD_or, hop i hi, BitVec.getLsbD_shiftLeft]
    simp [hi]
  refine ⟨?_, ?_, ?_⟩
  · apply BitVec.eq_of_getLsbD_eq
    intro i hi
    have htwo : ∀ i, i < 8 → (2#8).getLsbD i = decide (i = 1) := by decide
    have he : (24 + i = 25) = (i = 1) := by
      rw [eq_iff_iff]
      omega
    rw [opcode, BitVec.getLsbD_extractLsb', hbit (24 + i) (by omega),
      getLsbD_of_lt ha (by omega), getLsbD_of_lt hd (by omega)]
    show _ = (2#8).getLsbD i
    rw [htwo i hi]
    simp [he, hi]
  · apply BitVec.eq_of_getLsbD_eq
    intro i hi
    rw [wordAddr, BitVec.getLsbD_extractLsb', hbit (8 + i) (by omega), BitVec.getLsbD_setWidth,
      getLsbD_of_lt hd (by omega), Nat.add_sub_cancel_left]
    have he : ¬ 8 + i = 25 := by omega
    simp [hi, he]
  · apply BitVec.eq_of_getLsbD_eq
    intro i hi
    have he : ¬ i = 25 := by omega
    rw [wordData, BitVec.getLsbD_extractLsb', Nat.zero_add, hbit i (by omega),
      BitVec.getLsbD_setWidth]
    simp [hi, he]

/-! ## Whose byte a call stores -/

/-- The message's four addresses fit the 16-bit address field. -/
def Fits (msg : Mem) : Prop := (addrOf msg).toNat < 2 ^ 16 - 3

/-- The ranges of two messages have no address in common. -/
def Apart (msg msg' : Mem) : Prop :=
  (addrOf msg).toNat + 4 ≤ (addrOf msg').toNat ∨ (addrOf msg').toNat + 4 ≤ (addrOf msg).toNat

/-- No two messages, of one handler or of two, have an address in common. -/
structure DisjointRanges (msgs : Nat → List Mem) : Prop where
  same : ∀ i, (msgs i).Pairwise Apart
  across : ∀ i j, i ≠ j → ∀ msg ∈ msgs i, ∀ msg' ∈ msgs j, Apart msg msg'

theorem storeCall_fields {msg : Mem} (h : Fits msg) {k : Nat} (hk : k < 4) :
    opcode (storeCall msg k).2 = 2 ∧
    (wordAddr (storeCall msg k).2).toNat = (addrOf msg).toNat + k ∧
    wordData (storeCall msg k).2 = msg (4 + k) := by
  have haddr : (addrOf msg + BitVec.ofNat 32 k).toNat = (addrOf msg).toNat + k := by
    unfold Fits at h
    rw [BitVec.toNat_add, BitVec.toNat_ofNat]
    omega
  have hdata : ((msg (4 + k)).setWidth 32).toNat < 2 ^ 8 := by
    rw [BitVec.toNat_setWidth]
    exact Nat.lt_of_le_of_lt (Nat.mod_le ..) (msg (4 + k)).isLt
  unfold Fits at h
  obtain ⟨hop, ha, hd⟩ := store_fields (by rw [haddr]; omega) hdata
  refine ⟨hop, ?_, ?_⟩
  · rw [storeCall, ha, BitVec.toNat_setWidth, haddr]
    omega
  · rw [storeCall, hd]
    simp

theorem storeCall_writesTo {msg : Mem} (h : Fits msg) {k a : Nat} (hk : k < 4) :
    WritesTo a (storeCall msg k) ↔ a = (addrOf msg).toNat + k := by
  obtain ⟨hop, ha, -⟩ := storeCall_fields h hk
  unfold WritesTo
  rw [ha]
  exact ⟨fun hw => hw.2.symm, fun he => ⟨hop, he.symm⟩⟩

theorem wrenCall_not_writesTo (a : Nat) : ¬ WritesTo a wrenCall :=
  fun h => absurd h.1 (by decide)

theorem mem_callsOf {msg : Mem} {c : EepromCall} (h : c ∈ callsOf msg) :
    c = wrenCall ∨ ∃ k, k < 4 ∧ c = storeCall msg k := by
  rw [callsOf_eq] at h
  obtain ⟨k, hk, hc⟩ := List.mem_flatMap.mp h
  rcases List.mem_cons.mp hc with hw | hs
  · exact Or.inl hw
  · exact Or.inr ⟨k, List.mem_range.mp hk, List.mem_singleton.mp hs⟩

/-- A message writes each of its addresses once. -/
theorem filter_callsOf {msg : Mem} (h : Fits msg) {k : Nat} (hk : k < 4) :
    (callsOf msg).filter (fun c => WritesTo ((addrOf msg).toNat + k) c) = [storeCall msg k] := by
  have hone : ∀ j ∈ List.range 4, [wrenCall, storeCall msg j].filter
      (fun c => WritesTo ((addrOf msg).toNat + k) c) = if j = k then [storeCall msg j] else [] := by
    intro j hj
    have hiff := storeCall_writesTo (a := (addrOf msg).toNat + k) h (List.mem_range.mp hj)
    rw [List.filter_cons, if_neg (by simp [wrenCall_not_writesTo]), List.filter_singleton]
    by_cases hjk : j = k
    · rw [if_pos hjk, decide_eq_true (hiff.mpr (by rw [hjk]))]
      rfl
    · rw [if_neg hjk, decide_eq_false fun hw => hjk (Nat.add_left_cancel (hiff.mp hw)).symm]
      rfl
  rw [callsOf_eq, List.filter_flatMap, List.flatMap_congr hone]
  interval_cases k <;> rfl

/-- A message that is apart from another writes none of its addresses. -/
theorem filter_apart {msg msg' : Mem} (h : Fits msg) (hapart : Apart msg msg') {k : Nat}
    (hk : k < 4) :
    (callsOf msg).filter (fun c => WritesTo ((addrOf msg').toNat + k) c) = [] := by
  rw [List.filter_eq_nil_iff]
  intro c hc
  rw [decide_eq_true_eq]
  rcases mem_callsOf hc with rfl | ⟨j, hj, rfl⟩
  · exact wrenCall_not_writesTo _
  · rw [storeCall_writesTo h hj]
    unfold Apart at hapart
    omega

/-- A handler writes each address of its messages once. -/
theorem filter_program {msgs : List Mem} (hfits : ∀ msg ∈ msgs, Fits msg)
    (hapart : msgs.Pairwise Apart) {msg : Mem} (hm : msg ∈ msgs) {k : Nat} (hk : k < 4) :
    (msgs.flatMap callsOf).filter (fun c => WritesTo ((addrOf msg).toNat + k) c)
      = [storeCall msg k] := by
  induction msgs with
  | nil => exact absurd hm List.not_mem_nil
  | cons x xs ih =>
    obtain ⟨hx, hxs⟩ := List.pairwise_cons.mp hapart
    rw [List.flatMap_cons, List.filter_append]
    rcases List.mem_cons.mp hm with rfl | hm'
    · rw [filter_callsOf (hfits _ List.mem_cons_self) hk]
      have hnil : (xs.flatMap callsOf).filter
          (fun c => WritesTo ((addrOf msg).toNat + k) c) = [] := by
        rw [List.filter_flatMap, List.flatMap_eq_nil_iff]
        intro y hy
        exact filter_apart (hfits y (List.mem_cons_of_mem _ hy)) (hx y hy).symm hk
      rw [hnil]
      rfl
    · rw [filter_apart (hfits x List.mem_cons_self) (hx msg hm') hk, List.nil_append]
      exact ih (fun y hy => hfits y (List.mem_cons_of_mem _ hy)) hxs hm'

/-! ## What a sequence of calls does -/

/-- The EEPROM after the calls. -/
def Eeprom.calls (e : Eeprom) (es : List (Nat × EepromCall)) : Eeprom :=
  es.foldl (fun x y => x.call y.1 y.2) e

theorem calls_append (e : Eeprom) (es fs : List (Nat × EepromCall)) :
    e.calls (es ++ fs) = (e.calls es).calls fs := List.foldl_append

theorem call_mem {e : Eeprom} {i a : Nat} {c : EepromCall} (ha : a < 2 ^ 16)
    (h : ¬ WritesTo a c) : (e.call i c).mem (BitVec.ofNat 16 a) = e.mem (BitVec.ofNat 16 a) := by
  unfold Eeprom.call Eeprom.command
  split
  next =>
    split
    next => rfl
    next =>
      split
      next hop =>
        split
        next =>
          refine Function.update_of_ne (fun he => h ⟨hop, ?_⟩) ..
          rw [← he, BitVec.toNat_ofNat, Nat.mod_eq_of_lt ha]
        next => rfl
      next => rfl
  next => rfl

theorem calls_mem {e : Eeprom} {a : Nat} (ha : a < 2 ^ 16) :
    ∀ es : List (Nat × EepromCall), (∀ y ∈ es, ¬ WritesTo a y.2) →
      (e.calls es).mem (BitVec.ofNat 16 a) = e.mem (BitVec.ofNat 16 a) := by
  intro es
  induction es generalizing e with
  | nil =>
    intro _
    rfl
  | cons y ys ih =>
    intro h
    show ((e.call y.1 y.2).calls ys).mem _ = _
    rw [ih fun z hz => h z (List.mem_cons_of_mem y hz), call_mem ha (h y List.mem_cons_self)]

/-- `WREN` sets the latch. -/
theorem wren_latch (e : Eeprom) (i : Nat) : (e.call i wrenCall).wel = true := by
  have hop : opcode wrenCall.2 = 6 := by decide
  unfold Eeprom.call Eeprom.command
  rw [if_pos (by rfl), if_pos hop]

/-- `WRITE` leaves the latch cleared, whether it was carried out or not. -/
theorem write_latch {e : Eeprom} {c : EepromCall} (hc : c.1 = eepromWrdata)
    (hop : opcode c.2 = 2) (i : Nat) : (e.call i c).wel = false := by
  have hne : ¬ opcode c.2 = 6 := by
    rw [hop]
    decide
  unfold Eeprom.call Eeprom.command
  rw [if_pos hc, if_neg hne, if_pos hop]
  split
  next => rfl
  next hwel => simpa using hwel

/-- A `WRITE` stores its byte when the latch is set, and nothing otherwise. -/
theorem write_mem {e : Eeprom} {c : EepromCall} (hc : c.1 = eepromWrdata)
    (hop : opcode c.2 = 2) (i : Nat) :
    (e.call i c).mem (wordAddr c.2) = if e.wel then wordData c.2 else e.mem (wordAddr c.2) := by
  have hne : ¬ opcode c.2 = 6 := by
    rw [hop]
    decide
  unfold Eeprom.call Eeprom.command
  rw [if_pos hc, if_neg hne, if_pos hop]
  split
  next => exact Function.update_self ..
  next => rfl

/-! ## Interleavings -/

/-- The message's range holds its data. -/
def Holds (e : Eeprom) (msg : Mem) : Prop :=
  ∀ k, k < 4 → e.mem (BitVec.ofNat 16 ((addrOf msg).toNat + k)) = msg (4 + k)

/-- No `WRITE` comes directly after another, unless it stores what the EEPROM held. -/
def NoLostWrite (e : Eeprom) (es : List (Nat × EepromCall)) : Prop :=
  ∀ pre x y post, es = pre ++ x :: y :: post → opcode x.2.2 = 2 → opcode y.2.2 = 2 →
    e.mem (wordAddr y.2.2) = wordData y.2.2

/-- An interleaving of everything the handlers have to do. -/
structure Interleaves (msgs : Nat → List Mem) (es : List (Nat × EepromCall)) : Prop where
  fits : ∀ i, ∀ msg ∈ msgs i, Fits msg
  disjoint : DisjointRanges msgs
  parts : ∀ i, Threads.part i es = (msgs i).flatMap callsOf

section
variable {msgs : Nat → List Mem} {es : List (Nat × EepromCall)}

/-- Every call of the interleaving is a call for one of its handler's messages. -/
theorem Interleaves.call_cases (h : Interleaves msgs es) {y : Nat × EepromCall} (hy : y ∈ es) :
    y.2 = wrenCall ∨ ∃ msg ∈ msgs y.1, ∃ k, k < 4 ∧ y.2 = storeCall msg k := by
  have hpart : y.2 ∈ Threads.part y.1 es :=
    List.mem_map_of_mem (List.mem_filter.mpr ⟨hy, by simp⟩)
  rw [h.parts] at hpart
  obtain ⟨msg, hmsg, hc⟩ := List.mem_flatMap.mp hpart
  exact (mem_callsOf hc).imp id fun ⟨k, hk, he⟩ => ⟨msg, hmsg, k, hk, he⟩

/-- Each address of a message is written by one call of the whole interleaving. -/
theorem Interleaves.one_write (h : Interleaves msgs es) {i k : Nat} {msg : Mem}
    (hm : msg ∈ msgs i) (hk : k < 4) :
    (es.filter fun y => WritesTo ((addrOf msg).toNat + k) y.2).map Prod.snd
      = [storeCall msg k] := by
  have hsame : es.filter (fun y => WritesTo ((addrOf msg).toNat + k) y.2)
      = (es.filter fun y => y.1 = i).filter
          (fun y => WritesTo ((addrOf msg).toNat + k) y.2) := by
    rw [List.filter_filter]
    refine List.filter_congr fun y hy => ?_
    by_cases hw : WritesTo ((addrOf msg).toNat + k) y.2
    · -- whoever writes there is handler `i`, since other handlers' ranges are apart
      have hyi : y.1 = i := by
        by_contra hne
        rcases h.call_cases hy with hc | ⟨msg', hm', j, hj, hc⟩
        · rw [hc] at hw
          exact wrenCall_not_writesTo _ hw
        · have hapart := h.disjoint.across _ _ hne msg' hm' msg hm
          rw [hc, storeCall_writesTo (h.fits _ _ hm') hj] at hw
          unfold Apart at hapart
          omega
      simp [hw, hyi]
    · simp [hw]
  have hmap : ∀ l : List (Nat × EepromCall),
      (l.filter fun y => WritesTo ((addrOf msg).toNat + k) y.2).map Prod.snd
        = (l.map Prod.snd).filter fun c => WritesTo ((addrOf msg).toNat + k) c := by
    intro l
    rw [List.filter_map]
    rfl
  rw [hsame, hmap]
  show (Threads.part i es).filter _ = _
  rw [h.parts]
  exact filter_program (h.fits i) (h.disjoint.same i) hm hk

/-- What the EEPROM ends up with at an address: the byte of the one `WRITE` there if that
found the latch set, else what was there. -/
theorem Interleaves.final_byte (h : Interleaves msgs es) (e : Eeprom) {i k : Nat} {msg : Mem}
    (hm : msg ∈ msgs i) (hk : k < 4) {pre post : List (Nat × EepromCall)} {y : Nat × EepromCall}
    (hes : es = pre ++ y :: post) (hy : y.2 = storeCall msg k) :
    (e.calls es).mem (BitVec.ofNat 16 ((addrOf msg).toNat + k)) =
      if (e.calls pre).wel then msg (4 + k)
      else e.mem (BitVec.ofNat 16 ((addrOf msg).toNat + k)) := by
  have hfits := h.fits i msg hm
  obtain ⟨hop, haddr, hdata⟩ := storeCall_fields hfits hk
  have hlt : (addrOf msg).toNat + k < 2 ^ 16 := by
    unfold Fits at hfits
    omega
  have hword : BitVec.ofNat 16 ((addrOf msg).toNat + k) = wordAddr (storeCall msg k).2 := by
    rw [← haddr, BitVec.ofNat_toNat]
    simp
  have hone := h.one_write hm hk
  rw [hes, List.filter_append, List.filter_cons,
    if_pos (by rw [hy, decide_eq_true_eq, storeCall_writesTo hfits hk]), List.map_append,
    List.map_cons, hy] at hone
  -- nothing else in the list is written there
  have hlen := congrArg List.length hone
  simp only [List.length_append, List.length_map, List.length_cons, List.length_nil] at hlen
  have hpre : ∀ z ∈ pre, ¬ WritesTo ((addrOf msg).toNat + k) z.2 := by
    have hnil := List.filter_eq_nil_iff.mp (List.eq_nil_of_length_eq_zero (by omega :
      (pre.filter fun z => WritesTo ((addrOf msg).toNat + k) z.2).length = 0))
    simpa using hnil
  have hpost : ∀ z ∈ post, ¬ WritesTo ((addrOf msg).toNat + k) z.2 := by
    have hnil := List.filter_eq_nil_iff.mp (List.eq_nil_of_length_eq_zero (by omega :
      (post.filter fun z => WritesTo ((addrOf msg).toNat + k) z.2).length = 0))
    simpa using hnil
  rw [hes, calls_append]
  show (((e.calls pre).call y.1 y.2).calls post).mem _ = _
  rw [calls_mem hlt post hpost, hy, hword, write_mem rfl hop, hdata, ← hword,
    calls_mem hlt pre hpre]

/-- A `WRITE` is never the first call: its handler's `WREN` comes before. -/
theorem Interleaves.write_not_first (h : Interleaves msgs es) {y : Nat × EepromCall}
    {post : List (Nat × EepromCall)} (hes : es = y :: post) : y.2 = wrenCall := by
  have hparts := h.parts y.1
  rw [hes] at hparts
  have hcons : Threads.part y.1 (y :: post) = y.2 :: Threads.part y.1 post := by
    simp [Threads.part]
  rw [hcons] at hparts
  cases hms : msgs y.1 with
  | nil =>
    rw [hms] at hparts
    exact absurd hparts (by simp)
  | cons x xs =>
    rw [hms, List.flatMap_cons, callsOf_eq] at hparts
    exact (List.cons.inj hparts).1

/-- **When every update survives.** -/
theorem Interleaves.holds_iff (h : Interleaves msgs es) (e : Eeprom) :
    (∀ i, ∀ msg ∈ msgs i, Holds (e.calls es) msg) ↔ NoLostWrite e es := by
  constructor
  · intro hholds pre x y post hes hx hy
    have hxe : x ∈ es := by rw [hes]; simp
    have hye : y ∈ es := by rw [hes]; simp
    rcases h.call_cases hye with hc | ⟨msg, hm, k, hk, hc⟩
    · rw [hc] at hy
      exact absurd hy (by decide)
    · rcases h.call_cases hxe with hcx | ⟨msgx, hmx, kx, hkx, hcx⟩
      · rw [hcx] at hx
        exact absurd hx (by decide)
      · -- `x` left the latch cleared, so `y` was ignored
        have hsplit : es = (pre ++ [x]) ++ y :: post := by rw [hes]; simp
        have hfinal := h.final_byte e hm hk hsplit hc
        have hwel : (e.calls (pre ++ [x])).wel = false := by
          rw [calls_append]
          exact write_latch (by rw [hcx]; rfl) hx x.1
        obtain ⟨-, haddr, hdata⟩ := storeCall_fields (h.fits _ _ hm) hk
        rw [hwel, if_neg (by simp), hholds _ msg hm k hk] at hfinal
        rw [hc, hdata, hfinal, ← haddr, BitVec.ofNat_toNat]
        simp
  · intro hlost i msg hm k hk
    obtain ⟨hop, haddr, hdata⟩ := storeCall_fields (h.fits i msg hm) hk
    have hone := h.one_write hm hk
    obtain ⟨y, hyes, hy⟩ : ∃ y, y ∈ es ∧ y.2 = storeCall msg k := by
      obtain ⟨y, hymem, hy⟩ := List.mem_map.mp (hone ▸ List.mem_singleton_self (storeCall msg k))
      exact ⟨y, (List.mem_filter.mp hymem).1, hy⟩
    obtain ⟨pre, post, hes⟩ := List.append_of_mem hyes
    rw [h.final_byte e hm hk hes hy]
    cases pre using List.reverseRecOn with
    | nil =>
      rw [h.write_not_first hes] at hy
      rw [← hy] at hop
      exact absurd hop (by decide)
    | append_singleton pre x =>
      have hxe : x ∈ es := by rw [hes]; simp
      rcases h.call_cases hxe with hc | ⟨msgx, hmx, kx, hkx, hc⟩
      · have hwel : (e.calls (pre ++ [x])).wel = true := by
          rw [calls_append]
          show ((e.calls pre).call x.1 x.2).wel = true
          rw [hc]
          exact wren_latch _ _
        rw [if_pos hwel]
      · -- directly after a `WRITE`: then the byte was there before
        have hopx : opcode x.2.2 = 2 := by
          rw [hc]
          exact (storeCall_fields (h.fits _ _ hmx) hkx).1
        have hkept := hlost pre x y post (by rw [hes]; simp) hopx (by rw [hy]; exact hop)
        rw [hy, hdata] at hkept
        rw [← haddr, BitVec.ofNat_toNat, BitVec.setWidth_eq, hkept]
        split <;> rfl

end

/-- **The updates of every complete run.** Messages whose ranges are in the address space and
have nothing in common: when all calls have returned, every range holds its message's data
exactly when no `WRITE` came directly after another, except to store what was there. -/
theorem updates_of_run {msgs : Nat → List Mem} {e : Eeprom} {sched : List Nat}
    {s : Threads Nat EepromCall Eeprom} (hfits : ∀ i, ∀ msg ∈ msgs i, Fits msg)
    (hdisjoint : DisjointRanges msgs)
    (hrun : runFrom EepromStep (eepromStart msgs e) sched = some s)
    (hdone : ∀ i, s.todo i = []) :
    (∀ i, ∀ msg ∈ msgs i, Holds s.shared msg) ↔
      NoLostWrite e (Threads.performed Eeprom.call (eepromStart msgs e) sched) := by
  obtain ⟨hshared, hparts⟩ := Threads.complete hrun hdone
  rw [hshared]
  exact Interleaves.holds_iff ⟨hfits, hdisjoint, hparts⟩ e

/-- A handler that had nothing to do has nothing to do. -/
theorem todo_of_none {msgs : Nat → List Mem} {e : Eeprom} {sched : List Nat}
    {s : Threads Nat EepromCall Eeprom} {i : Nat}
    (hrun : runFrom EepromStep (eepromStart msgs e) sched = some s) (hnone : msgs i = []) :
    s.todo i = [] := by
  have h := (Threads.run_performed hrun).2 i
  have hstart : (eepromStart msgs e).todo i = [] := by
    show (msgs i).flatMap callsOf = []
    rw [hnone]
    rfl
  rw [hstart] at h
  exact (List.append_eq_nil_iff.mp h).2

/-- A message that stores `12 12 12 12` from address `a` on. -/
def fillMsg (a : Byte) : Mem := fun i => if i = 3 then a else if i < 4 then 0 else 0x12

/-- An EEPROM full of `FF`. -/
def erased : Eeprom := ⟨fun _ => 0xFF, false⟩

/-- Two clients with a message each, for the addresses `0` to `3` and `4` to `7`. -/
def twoUpdates (i : Nat) : List Mem :=
  if i = 0 then [fillMsg 0] else if i = 1 then [fillMsg 4] else []

theorem twoUpdates_fits : ∀ i, ∀ msg ∈ twoUpdates i, Fits msg := by
  intro i msg hm
  unfold twoUpdates at hm
  split at hm
  next =>
    rw [List.mem_singleton.mp hm]
    show (addrOf (fillMsg 0)).toNat < 2 ^ 16 - 3
    decide
  next =>
    split at hm
    next =>
      rw [List.mem_singleton.mp hm]
      show (addrOf (fillMsg 4)).toNat < 2 ^ 16 - 3
      decide
    next => exact absurd hm List.not_mem_nil

theorem twoUpdates_disjoint : DisjointRanges twoUpdates := by
  have h01 : Apart (fillMsg 0) (fillMsg 4) := Or.inl (by decide)
  refine ⟨fun i => ?_, fun i j hij msg hm msg' hm' => ?_⟩
  · unfold twoUpdates
    split
    next => exact List.pairwise_singleton ..
    next =>
      split
      next => exact List.pairwise_singleton ..
      next => exact List.Pairwise.nil
  · unfold twoUpdates at hm hm'
    split at hm
    next h0 =>
      rw [if_neg (by omega)] at hm'
      split at hm'
      next =>
        rw [List.mem_singleton.mp hm, List.mem_singleton.mp hm']
        exact h01
      next => exact absurd hm' List.not_mem_nil
    next h0 =>
      split at hm
      next h1 =>
        split at hm'
        next =>
          rw [List.mem_singleton.mp hm, List.mem_singleton.mp hm']
          exact h01.symm
        next =>
          rw [if_neg (by omega)] at hm'
          exact absurd hm' List.not_mem_nil
      next => exact absurd hm List.not_mem_nil

/-- The two clients one after the other. -/
theorem updates_of_run_in_turn :
    ∃ s, runFrom EepromStep (eepromStart twoUpdates erased)
        [0, 0, 0, 0, 0, 0, 0, 0, 1, 1, 1, 1, 1, 1, 1, 1] = some s ∧
      ((∀ i, ∀ msg ∈ twoUpdates i, Holds s.shared msg) ↔
        NoLostWrite erased (Threads.performed Eeprom.call (eepromStart twoUpdates erased)
          [0, 0, 0, 0, 0, 0, 0, 0, 1, 1, 1, 1, 1, 1, 1, 1])) := by
  have h : (runFrom EepromStep (eepromStart twoUpdates erased)
      [0, 0, 0, 0, 0, 0, 0, 0, 1, 1, 1, 1, 1, 1, 1, 1]).map (fun s => (s.todo 0, s.todo 1)) =
      some ([], []) := by
    decide
  obtain ⟨s, hs, hfacts⟩ := Option.map_eq_some_iff.mp h
  simp only [Prod.mk.injEq] at hfacts
  refine ⟨s, hs, updates_of_run twoUpdates_fits twoUpdates_disjoint hs fun i => ?_⟩
  by_cases h0 : i = 0
  · rw [h0]
    exact hfacts.1
  · by_cases h1 : i = 1
    · rw [h1]
      exact hfacts.2
    · exact todo_of_none hs (by rw [twoUpdates, if_neg h0, if_neg h1])

/-- Both clients have sent `WREN` before the first sends its `WRITE`: the second client's
`WRITE` is ignored, and address `4` keeps what it held. -/
theorem update_lost :
    (∀ i, ∀ msg ∈ twoUpdates i, Fits msg) ∧ DisjointRanges twoUpdates ∧
    ∃ s, runFrom EepromStep (eepromStart twoUpdates erased)
        [0, 1, 0, 1, 0, 0, 0, 0, 0, 0, 1, 1, 1, 1, 1, 1] = some s ∧
      (∀ i, s.todo i = []) ∧ s.shared.mem 4 = 0xFF ∧ ¬ Holds s.shared (fillMsg 4) := by
  refine ⟨twoUpdates_fits, twoUpdates_disjoint, ?_⟩
  have h : (runFrom EepromStep (eepromStart twoUpdates erased)
      [0, 1, 0, 1, 0, 0, 0, 0, 0, 0, 1, 1, 1, 1, 1, 1]).map
        (fun s => (s.todo 0, s.todo 1, s.shared.mem 4)) = some ([], [], 0xFF) := by
    decide
  obtain ⟨s, hs, hfacts⟩ := Option.map_eq_some_iff.mp h
  simp only [Prod.mk.injEq] at hfacts
  obtain ⟨hdone0, hdone1, hmem⟩ := hfacts
  refine ⟨s, hs, fun i => ?_, hmem, fun hholds => ?_⟩
  · by_cases h0 : i = 0
    · rw [h0]
      exact hdone0
    · by_cases h1 : i = 1
      · rw [h1]
        exact hdone1
      · exact todo_of_none hs (by rw [twoUpdates, if_neg h0, if_neg h1])
  · have hbyte : s.shared.mem 4 = fillMsg 4 (4 + 0) := hholds 0 (by decide)
    rw [hmem] at hbyte
    exact absurd hbyte (by decide)

end Acmi.Control
