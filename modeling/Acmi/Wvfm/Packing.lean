import Acmi.Wvfm.Task
import Mathlib.Data.List.GetD

/-!
# What the messages are made of

The four readout loops take the words of the FIFO apart, into words and into pairs of samples, and
reverse the bytes of each piece; the sends put the arrays on the wire as they lie in memory. All
in all nothing happens to the words: the bodies of messages 51 to 54, end to end, are the words in
the order in which they were read, most significant byte first (`packing_lossless`). A pair of
samples is a word, the earlier sample in its upper half (`samples`), whatever its sign.
-/

namespace Acmi.Wvfm

open Acmi.Lib Acmi.Psc

/-- The samples that are packed in some words. -/
def samples (ws : List (BitVec 32)) : List (BitVec 16) :=
  ws.flatMap fun w => [w.extractLsb' 16 16, w.extractLsb' 0 16]

theorem samples_length (ws : List (BitVec 32)) : (samples ws).length = 2 * ws.length := by
  induction ws with
  | nil => rfl
  | cons w ws ih =>
    rw [samples, List.flatMap_cons, List.length_append, ← samples, ih, List.length_cons]
    show 2 + 2 * ws.length = 2 * (ws.length + 1)
    omega

/-- Samples in network order are the words in network order. -/
theorem samples_flatMap (ws : List (BitVec 32)) : (samples ws).flatMap be16 = ws.flatMap be32 := by
  rw [samples, List.flatMap_assoc]
  apply List.flatMap_congr
  intro w _
  rw [← be16_append_be16, List.flatMap_cons, List.flatMap_cons, List.flatMap_nil, List.append_nil]

/-- The frame that consists of some words. -/
def frameOf (ws : List (BitVec 32)) (ns sec : BitVec 32) : Frame := ⟨fun i => ws.getD i 0, ns, sec⟩

theorem body_frameOf {ws : List (BitVec 32)} {k n : Nat} (h : k + n ≤ ws.length)
    (ns sec : BitVec 32) : (frameOf ws ns sec).body k n = ((ws.drop k).take n).flatMap be32 := by
  have hslice : (List.range n).map (fun i => ws.getD (k + i) 0) = (ws.drop k).take n := by
    apply List.ext_getElem
    · rw [List.length_map, List.length_range, List.length_take, List.length_drop]
      omega
    · intro i hi _
      have hlt : k + i < ws.length := by
        rw [List.length_map, List.length_range] at hi
        omega
      rw [List.getElem_map, List.getElem_range, List.getElem_take, List.getElem_drop,
        List.getD_eq_getElem _ _ hlt]
  rw [← hslice, List.flatMap_map]
  rfl

/-! ## The readout -/

/-- The readout loops put the words of a frame into the arrays, from word `k` to the end. -/
theorem readout_holds {f : Frame} (ws : List (BitVec 32)) :
    ∀ (k : Nat) (t : Task), t.pc = (if k < 8192 then .readout k else .tsNs) →
      k + ws.length = 8192 → (∀ i (h : i < ws.length), ws[i] = f.words (k + i)) →
      t.arrays.Holds f k →
      (ws.foldl Task.access t).pc = .tsNs ∧ (ws.foldl Task.access t).arrays.Holds f 8192 ∧
        (ws.foldl Task.access t).passes = t.passes := by
  induction ws with
  | nil =>
    intro k t hpc hk _ hholds
    have hk' : k = 8192 := hk
    subst hk'
    exact ⟨hpc, hholds, rfl⟩
  | cons w ws ih =>
    intro k t hpc hk hws hholds
    rw [List.length_cons] at hk
    rw [if_pos (by omega)] at hpc
    have hw : w = f.words k := hws 0 (Nat.zero_lt_succ _)
    have haccess : t.access w = { t with
        arrays := t.arrays.store k (f.words k)
        reads := { t.reads with words := t.reads.words ++ [w] }
        pc := if k + 1 < 8192 then .readout (k + 1) else .tsNs } := by
      simp only [Task.access, hpc, hw]
    have hrest : ∀ i (h : i < ws.length), ws[i] = f.words (k + 1 + i) := by
      intro i hi
      have := hws (i + 1) (Nat.succ_lt_succ hi)
      rwa [List.getElem_cons_succ, ← Nat.add_assoc, Nat.add_right_comm] at this
    rw [List.foldl_cons, haccess]
    exact ih (k + 1) _ rfl (by omega) hrest hholds.store

/-- What the two time stamp registers return goes out in message 55. -/
theorem finish_messages {f : Frame} {a : Arrays} (h : a.Holds f 8192) :
    Arrays.messages { a with
      timestamp := Function.update (Function.update a.timestamp 0 (htonl f.seconds)) 1
        (htonl f.offset) } = f.messages := by
  obtain ⟨hpulse, heeprom, hboow, hwvfm⟩ := h
  refine messages_of_holds ⟨hpulse, heeprom, hboow, hwvfm⟩ ?_ ?_
  · have h01 : (0 : Nat) ≠ 1 := by decide
    show Function.update (Function.update a.timestamp 0 (htonl f.seconds)) 1 (htonl f.offset) 0 =
      htonl f.seconds
    rw [Function.update_of_ne h01, Function.update_self]
  · show Function.update (Function.update a.timestamp 0 (htonl f.seconds)) 1 (htonl f.offset) 1 =
      htonl f.offset
    rw [Function.update_self]

/-- The body of message `id`. -/
def bodyOf (messages : List (Nat × List Byte)) (id : Nat) : List Byte :=
  (messages.lookup id).getD []

theorem bodyOf_messages (f : Frame) : bodyOf f.messages 51 = f.body 0 64 ∧
    bodyOf f.messages 52 = f.body 64 64 ∧ bodyOf f.messages 53 = f.body 128 64 ∧
    bodyOf f.messages 54 = f.body 192 8000 := by
  simp [bodyOf, Frame.messages, List.lookup_cons]

/-- **Packing loses nothing.** Whatever 8192 words a readout is given, and whatever the six
accesses behind it return, the pass sends the words in the order they were read, each once. -/
theorem packing_lossless (t : Task) (hpc : t.pc = .readout 0) (ws : List (BitVec 32))
    (hws : ws.length = 8192) (ns sec v0 v1 v2 v3 : BitVec 32) :
    ∃ p, ((ws ++ [ns, sec, v0, v1, v2, v3]).foldl Task.access t).passes = t.passes ++ [p] ∧
      bodyOf p.messages 51 ++ bodyOf p.messages 52 ++ bodyOf p.messages 53 ++
        bodyOf p.messages 54 = ws.flatMap be32 ∧
      bodyOf p.messages 51 = (ws.take 64).flatMap be32 ∧
      bodyOf p.messages 52 = ((ws.drop 64).take 64).flatMap be32 ∧
      bodyOf p.messages 53 = (samples ((ws.drop 128).take 64)).flatMap be16 ∧
      (samples ((ws.drop 128).take 64)).length = 128 ∧
      bodyOf p.messages 54 = (samples (ws.drop 192)).flatMap be16 ∧
      (samples (ws.drop 192)).length = 16000 := by
  let f := frameOf ws ns sec
  have hwords : ∀ i (h : i < ws.length), ws[i] = f.words (0 + i) := by
    intro i hi
    show ws[i] = ws.getD (0 + i) 0
    rw [Nat.zero_add, List.getD_eq_getElem _ _ hi]
  obtain ⟨hpc', hholds, hpasses⟩ :=
    readout_holds ws 0 t hpc (by omega) hwords (t.arrays.holds_zero f)
  rw [List.foldl_append]
  generalize ws.foldl Task.access t = u at hpc' hholds hpasses
  obtain ⟨pc, arrays, reads, passes⟩ := u
  subst hpc'
  refine ⟨⟨⟨reads.polled, reads.words, reads.stamp ++ [ns] ++ [sec]⟩, f.messages⟩, ?_, ?_⟩
  · have hlast := finish_messages hholds
    rw [← hpasses, ← hlast]
    rfl
  have hpulse : f.body 0 64 = (ws.take 64).flatMap be32 := body_frameOf (by omega) ns sec
  have heeprom : f.body 64 64 = ((ws.drop 64).take 64).flatMap be32 :=
    body_frameOf (by omega) ns sec
  have hboow : f.body 128 64 = ((ws.drop 128).take 64).flatMap be32 :=
    body_frameOf (by omega) ns sec
  have hwvfm : f.body 192 8000 = (ws.drop 192).flatMap be32 := by
    have hall : (ws.drop 192).take 8000 = ws.drop 192 := by
      apply List.take_of_length_le
      rw [List.length_drop]
      omega
    rw [← hall]
    exact body_frameOf (by omega) ns sec
  have hslices :
      ws.take 64 ++ (ws.drop 64).take 64 ++ (ws.drop 128).take 64 ++ ws.drop 192 = ws := by
    have hjoin : ∀ k n, (ws.drop k).take n ++ ws.drop (k + n) = ws.drop k := by
      intro k n
      rw [← List.drop_drop, List.take_append_drop]
    rw [List.append_assoc, List.append_assoc, hjoin 128 64, hjoin 64 64, List.take_append_drop]
  obtain ⟨h51, h52, h53, h54⟩ := bodyOf_messages f
  rw [h51, h52, h53, h54, samples_flatMap, samples_flatMap, samples_length, samples_length, hpulse,
    heeprom, hboow, hwvfm]
  refine ⟨?_, rfl, rfl, rfl, ?_, rfl, ?_⟩
  · rw [← List.flatMap_append, ← List.flatMap_append, ← List.flatMap_append, hslices]
  · rw [List.length_take, List.length_drop, hws]
    rfl
  · rw [List.length_drop, hws]

/-- Samples of both signs. -/
theorem packing_lossless_negative :
    ∃ p, ((List.replicate 8192 0x8000FFFF#32 ++ [1, 2, 0, 0, 0, 0]).foldl Task.access
        { Task.init with pc := .readout 0 }).passes = [p] ∧
      bodyOf p.messages 51 ++ bodyOf p.messages 52 ++ bodyOf p.messages 53 ++
        bodyOf p.messages 54 = (List.replicate 8192 0x8000FFFF#32).flatMap be32 := by
  obtain ⟨p, hpasses, hall, -⟩ := packing_lossless { Task.init with pc := .readout 0 } rfl
    (List.replicate 8192 0x8000FFFF#32) List.length_replicate 1 2 0 0 0 0
  exact ⟨p, hpasses, hall⟩

end Acmi.Wvfm
