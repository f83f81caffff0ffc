import Acmi.Control.Commands
import Acmi.Lib.Schedule
import Acmi.Spi.Link

/-!
# From a client to the lines of the SPI link

The register writes of a handler take effect at some clock each, and `artix_spi` looks at the
registers with every clock. If the line `ARTIX_SPI_WE` is up for at most 1000 clocks at a time and
goes up at most every 1500 (`Paced`; `usleep(50)` is 5000), the frames on the link are the requests
in the order of the writes. Together with what a connection writes for a stream this is a chain from
the socket to the pins: a client that sends commands has the Artix receive their requests, word for
word (`spi_of_commands`).

Mirroring notes:
- A clock is one of `pl_clk0`, and the registers are 0 in the first. A write is visible from the
  clock that it carries.
- The chain is for one client at a time; what several do to each other's requests is another matter.
-/

namespace Acmi.Control

open Acmi.Lib Acmi.Psc Acmi.Server

/-! ## The writes of requests -/

/-- The line is raised and lowered, and lowered as soon as it has been raised. -/
structure Requesting (ws : List RegWrite) : Prop where
  level : ∀ w ∈ ws, w.reg = .artixSpiWe → w = raiseWe ∨ w = lowerWe
  lowered : ∀ before after, ws = before ++ raiseWe :: after → ∃ rest, after = lowerWe :: rest

/-- The line is raised by the third of the four writes, or behind them. -/
theorem raise_of_spiRequest {r : Request} {ws before after : List RegWrite}
    (h : spiRequest r.1 r.2 ++ ws = before ++ raiseWe :: after) :
    after = lowerWe :: ws ∨ ∃ later, ws = later ++ raiseWe :: after := by
  rcases before with _ | ⟨_, _ | ⟨_, _ | ⟨_, _ | ⟨_, later⟩⟩⟩⟩ <;>
    simp only [spiRequest, List.cons_append, List.nil_append, List.cons.injEq, raiseWe,
      RegWrite.mk.injEq, reduceCtorEq, false_and, and_false, true_and] at h
  · exact Or.inl h.2.2.symm
  · exact absurd h.2.2.2.1 (by decide)
  · next later => exact Or.inr ⟨later, h.2.2.2.2⟩

theorem Makes.requesting {rs : List Request} {ws : List RegWrite} (h : Makes rs ws) :
    Requesting ws := by
  induction h with
  | done => exact ⟨fun w hw => absurd hw List.not_mem_nil, fun before after he => by simp at he⟩
  | @request r rs ws _ ih =>
    refine ⟨fun w hw hreg => ?_, fun before after he => ?_⟩
    · rcases List.mem_append.mp hw with hw | hw
      · simp only [spiRequest, List.mem_cons, List.not_mem_nil, or_false] at hw
        rcases hw with rfl | rfl | rfl | rfl
        · cases hreg
        · cases hreg
        · exact Or.inl rfl
        · exact Or.inr rfl
      · exact ih.level w hw hreg
    · rcases raise_of_spiRequest he with hafter | ⟨later, hlater⟩
      · exact ⟨ws, hafter⟩
      · exact ih.lowered later after hlater
  | @other w rs ws hw _ ih =>
    refine ⟨fun v hv hreg => ?_, fun before after he => ?_⟩
    · rcases List.mem_cons.mp hv with hv | hv
      · exact absurd (hv ▸ hreg) hw.2.2
      · exact ih.level v hv hreg
    · cases before with
      | nil =>
        have hraise : w = raiseWe := (List.cons.inj he).1
        exact absurd (congrArg RegWrite.reg hraise) hw.2.2
      | cons _ before => exact ih.lowered before after (List.cons.inj he).2

/-- A handler's writes, one after the other. -/
def SpiPort.run (p : SpiPort) (ws : List RegWrite) : SpiPort :=
  ws.foldl (fun p w => p.write 0 w) p

theorem SpiPort.run_append (p : SpiPort) (ws ws' : List RegWrite) :
    p.run (ws ++ ws') = (p.run ws).run ws' :=
  List.foldl_append ..

/-- The port sees the requests. -/
theorem Makes.seen {rs : List Request} {ws : List RegWrite} (h : Makes rs ws) {p : SpiPort}
    (hwe : p.we = 0) : (p.run ws).seen.map Prod.snd = p.seen.map Prod.snd ++ rs := by
  induction h generalizing p with
  | done => exact (List.append_nil _).symm
  | @request r rs ws _ ih =>
    have hone : p.run (spiRequest r.1 r.2) = ⟨r.2, r.1, 0, p.seen ++ [(0, r)]⟩ := by
      simp [SpiPort.run, spiRequest, SpiPort.write, hwe]
    rw [SpiPort.run_append, hone, ih rfl, List.map_append, List.append_assoc]
    rfl
  | @other w rs ws hw _ ih =>
    have hsame : (p.write 0 w).we = 0 ∧ (p.write 0 w).seen = p.seen := by
      rw [write_we, write_seen, if_neg hw.2.2, if_neg fun h => hw.2.2 h.1]
      exact ⟨hwe, rfl⟩
    have hrun := ih hsame.1
    rw [hsame.2] at hrun
    exact hrun

/-! ## The link, clock by clock -/

/-- What has been received stays received. -/
theorem received_prefix {regs : Nat → Spi.RegO} (hp : Spi.Pulses regs) (t n : Nat) :
    (Spi.received Spi.init regs t).words <+: (Spi.received Spi.init regs (t + n)).words := by
  induction n with
  | zero => exact List.prefix_refl _
  | succ n ih =>
    refine ih.trans ?_
    rw [Spi.received_words hp, Spi.received_words hp]
    refine List.IsPrefix.map _ ?_
    show Spi.sent regs (t + n) <+: Spi.sent regs (t + n + 1)
    by_cases hend : ∃ p, Spi.Rise regs p ∧ Spi.startOf Spi.init p + 1419 = t + n
    · obtain ⟨p, hrise, ht⟩ := hend
      rw [Spi.sent_done hp hrise ht]
      exact List.prefix_append ..
    · have hsame := Spi.sent_same fun p hrise ht => hend ⟨p, hrise, ht⟩
      exact hsame ▸ List.prefix_refl _

/-! ## The registers, clock by clock -/

/-- What the SPI master gets to see of the port. -/
def SpiPort.regO (p : SpiPort) : Spi.RegO := ⟨p.addr, p.data, p.we.getLsbD 0⟩

/-- The registers out of reset. -/
def SpiPort.reset : SpiPort := ⟨0, 0, 0, []⟩

/-- The port at clock `t`. -/
def portAt (es : List (Nat × RegWrite)) (t : Nat) : SpiPort := SpiPort.reset.run (upTo es t)

def regsAt (es : List (Nat × RegWrite)) (t : Nat) : Spi.RegO := (portAt es t).regO

/-- Between two writes the port stays. -/
theorem portAt_split {before after : List (Nat × RegWrite)} {t : Nat}
    (hbefore : ∀ e ∈ before, e.1 ≤ t) (hafter : ∀ e ∈ after, t < e.1) :
    portAt (before ++ after) t = SpiPort.reset.run (before.map Prod.snd) :=
  congrArg SpiPort.reset.run (upTo_split hbefore hafter)

/-- When the writes come. -/
structure Paced (es : List (Nat × RegWrite)) : Prop where
  ascending : Ascending es
  short : ∀ before t t' after, es = before ++ (t, raiseWe) :: (t', lowerWe) :: after →
    t' ≤ t + 1000
  apart : ∀ t t', (t, raiseWe) ∈ es → (t', raiseWe) ∈ es → t < t' → t + 1500 ≤ t'

section

variable {es : List (Nat × RegWrite)} (hreq : Requesting (es.map Prod.snd)) (hpaced : Paced es)

include hpaced

/-- One clock: nothing is written, or one register is. -/
theorem portAt_succ (t : Nat) :
    ((∀ e ∈ es, e.1 ≠ t + 1) ∧ portAt es (t + 1) = portAt es t) ∨
      ∃ before w after, es = before ++ (t + 1, w) :: after ∧
        portAt es t = SpiPort.reset.run (before.map Prod.snd) ∧
        portAt es (t + 1) = (portAt es t).write 0 w := by
  rcases hpaced.ascending.upTo_succ t with ⟨hnone, hsame⟩ | ⟨before, w, after, he, hold, hnew⟩
  · exact Or.inl ⟨hnone, congrArg SpiPort.reset.run hsame⟩
  · refine Or.inr ⟨before, w, after, he, congrArg SpiPort.reset.run hold, ?_⟩
    rw [portAt, hnew, SpiPort.run_append]
    rfl

/-- At the clock of a write. -/
theorem portAt_write {before after : List (Nat × RegWrite)} {t : Nat} {w : RegWrite}
    (hes : es = before ++ (t, w) :: after) :
    portAt es t = (SpiPort.reset.run (before.map Prod.snd)).write 0 w := by
  have hascending := hpaced.ascending
  rw [hes] at hascending ⊢
  obtain ⟨hbefore, hafter⟩ := hascending.around
  have hsplit : before ++ (t, w) :: after = (before ++ [(t, w)]) ++ after := by simp
  rw [hsplit, portAt_split (fun x hx => ?_) hafter, List.map_append, SpiPort.run_append]
  · rfl
  · rcases List.mem_append.mp hx with hx | hx
    · exact Nat.le_of_lt (hbefore x hx)
    · rw [List.mem_singleton.mp hx]

theorem portAt_zero : portAt es 0 = .reset := by
  rw [portAt, hpaced.ascending.upTo_zero]
  rfl

include hreq

/-- The line is 0 or 1. -/
theorem portAt_level (t : Nat) : (portAt es t).we = 0 ∨ (portAt es t).we = 1 := by
  induction t with
  | zero =>
    rw [portAt_zero hpaced]
    exact Or.inl rfl
  | succ t ih =>
    rcases portAt_succ hpaced t with ⟨-, hsame⟩ | ⟨before, w, after, he, -, hnew⟩
    · rw [hsame]
      exact ih
    · rw [hnew, write_we]
      split_ifs with hwe
      · have hmem : w ∈ es.map Prod.snd := by
          rw [he]
          simp
        rcases hreq.level w hmem hwe with rfl | rfl
        · exact Or.inr rfl
        · exact Or.inl rfl
      · exact ih

theorem regsAt_we_iff (t : Nat) : (regsAt es t).we = true ↔ (portAt es t).we = 1 := by
  show (portAt es t).we.getLsbD 0 = true ↔ _
  rcases portAt_level hreq hpaced t with h | h <;> rw [h] <;> decide

/-- **The line goes up** at the writes that raise it, and there the port sees a request. -/
theorem rise_succ_iff (t : Nat) : Spi.Rise (regsAt es) (t + 1) ↔
    (portAt es t).we = 0 ∧ ∃ before after, es = before ++ (t + 1, raiseWe) :: after ∧
      portAt es t = SpiPort.reset.run (before.map Prod.snd) ∧
      portAt es (t + 1) = (portAt es t).write 0 raiseWe := by
  have hrise : Spi.Rise (regsAt es) (t + 1) ↔
      (portAt es (t + 1)).we = 1 ∧ (portAt es t).we = 0 := by
    rw [Spi.Rise, regsAt_we_iff hreq hpaced, Nat.add_sub_cancel, or_iff_right (Nat.succ_ne_zero t),
      Bool.eq_false_iff, ne_eq, regsAt_we_iff hreq hpaced]
    refine and_congr_right fun _ => ?_
    rcases portAt_level hreq hpaced t with h | h <;> rw [h] <;> decide
  rw [hrise]
  constructor
  · intro ⟨hup, hdown⟩
    rcases portAt_succ hpaced t with ⟨-, hsame⟩ | ⟨before, w, after, he, hold, hnew⟩
    · rw [hsame, hdown] at hup
      exact absurd hup (by decide)
    · have hw : w.reg = .artixSpiWe := by
        by_contra hne
        rw [hnew, write_we, if_neg hne, hdown] at hup
        exact absurd hup (by decide)
      have hmem : w ∈ es.map Prod.snd := by
        rw [he]
        simp
      rcases hreq.level w hmem hw with rfl | rfl
      · exact ⟨hdown, before, after, he, hold, hnew⟩
      · rw [hnew, write_we, if_pos hw] at hup
        exact absurd hup (by decide)
  · intro h
    obtain ⟨hdown, before, after, -, -, hnew⟩ := h
    refine ⟨?_, hdown⟩
    rw [hnew, write_we]
    exact if_pos rfl

theorem not_rise_zero : ¬ Spi.Rise (regsAt es) 0 := by
  intro hrise
  have hup := (regsAt_we_iff hreq hpaced 0).mp hrise.1
  rw [portAt_zero hpaced] at hup
  exact absurd hup (by decide)

theorem rise_mem {p : Nat} (hrise : Spi.Rise (regsAt es) p) : (p, raiseWe) ∈ es := by
  cases p with
  | zero => exact absurd hrise (not_rise_zero hreq hpaced)
  | succ t =>
    obtain ⟨-, before, after, he, -⟩ := (rise_succ_iff hreq hpaced t).mp hrise
    rw [he]
    exact List.mem_append_right _ List.mem_cons_self

/-- The requests seen are those at the rises so far. -/
theorem seen_eq (t : Nat) : (portAt es t).seen.map Prod.snd =
    ((List.range (t + 1)).filter fun p => Spi.Rise (regsAt es) p).map fun p =>
      ((regsAt es p).addr, (regsAt es p).dout) := by
  induction t with
  | zero =>
    rw [portAt_zero hpaced, List.range_one, List.filter_singleton,
      decide_eq_false (not_rise_zero hreq hpaced)]
    rfl
  | succ t ih =>
    rw [List.range_succ, List.filter_append, List.filter_singleton, List.map_append, ← ih]
    by_cases hrise : Spi.Rise (regsAt es) (t + 1)
    · obtain ⟨hdown, before, after, -, -, hnew⟩ := (rise_succ_iff hreq hpaced t).mp hrise
      have haddr : (regsAt es (t + 1)).addr = (portAt es t).addr := by
        show (portAt es (t + 1)).addr = _
        rw [hnew, write_addr]
        rfl
      have hdata : (regsAt es (t + 1)).dout = (portAt es t).data := by
        show (portAt es (t + 1)).data = _
        rw [hnew, write_data]
        rfl
      rw [decide_eq_true hrise, hnew, write_seen, if_pos ⟨rfl, hdown, rfl⟩, List.map_append]
      show _ = _ ++ [((regsAt es (t + 1)).addr, (regsAt es (t + 1)).dout)]
      rw [haddr, hdata]
      rfl
    · have hsame : (portAt es (t + 1)).seen = (portAt es t).seen := by
        rcases portAt_succ hpaced t with ⟨-, hsame⟩ | ⟨before, w, after, he, hold, hnew⟩
        · rw [hsame]
        · rw [hnew, write_seen]
          refine if_neg fun hseen => hrise ((rise_succ_iff hreq hpaced t).mpr ?_)
          obtain ⟨hw, hdown, hval⟩ := hseen
          have hraise : w = raiseWe := by
            cases w
            cases hw
            cases hval
            rfl
          rw [hraise] at he hnew
          exact ⟨hdown, before, after, he, hold, hnew⟩
      rw [decide_eq_false hrise, hsame]
      exact (List.append_nil _).symm

/-- **The pulses** are as the link needs them. -/
theorem pulses_of_paced : Spi.Pulses (regsAt es) := by
  refine ⟨fun p hrise => ?_, fun p p' hrise hrise' hlt => hpaced.apart p p'
    (rise_mem hreq hpaced hrise) (rise_mem hreq hpaced hrise') hlt⟩
  cases p with
  | zero => exact absurd hrise (not_rise_zero hreq hpaced)
  | succ t =>
    obtain ⟨-, before, after, he, -, -⟩ := (rise_succ_iff hreq hpaced t).mp hrise
    -- the next write lowers the line
    have hwrites : es.map Prod.snd = before.map Prod.snd ++ raiseWe :: after.map Prod.snd := by
      rw [he, List.map_append, List.map_cons]
    obtain ⟨rest, hrest⟩ := hreq.lowered _ _ hwrites
    obtain ⟨⟨q, w⟩, later, rfl, hw, -⟩ := List.map_eq_cons_iff.mp hrest
    obtain rfl : w = lowerWe := hw
    have hshort := hpaced.short before (t + 1) q later he
    have hascending := hpaced.ascending
    rw [he] at hascending
    obtain ⟨hbefore, hafter⟩ := hascending.around
    have hq : t + 1 < q := hafter _ List.mem_cons_self
    have hsplit : es = (before ++ [(t + 1, raiseWe)]) ++ (q, lowerWe) :: later := by
      rw [he, List.append_assoc]
      rfl
    have hascending' := hpaced.ascending
    rw [hsplit] at hascending'
    obtain ⟨hpast, hfuture⟩ := hascending'.around
    -- from clock `t + 1` to clock `q` the port stays as it is
    have hbetween : ∀ u, t + 1 ≤ u → u < q →
        portAt es u = SpiPort.reset.run ((before ++ [(t + 1, raiseWe)]).map Prod.snd) := by
      intro u hle hlt
      rw [hsplit]
      refine portAt_split (fun x hx => ?_) fun x hx => ?_
      · rcases List.mem_append.mp hx with hx | hx
        · exact Nat.le_of_lt (Nat.lt_of_lt_of_le (hbefore x hx) hle)
        · rw [List.mem_singleton.mp hx]
          exact hle
      · rcases List.mem_cons.mp hx with hx | hx
        · rw [hx]
          exact hlt
        · exact Nat.lt_trans hlt (hfuture x hx)
    obtain ⟨k, rfl⟩ : ∃ k, q = k + 1 := ⟨q - 1, by omega⟩
    refine ⟨k + 1 - (t + 1), by omega, ?_, fun i hi => ?_⟩
    · rw [Nat.add_sub_cancel' (Nat.le_of_lt hq), Bool.eq_false_iff, ne_eq,
        regsAt_we_iff hreq hpaced]
      have hlow := portAt_write hpaced hsplit
      rw [hlow, write_we, if_pos (show lowerWe.reg = .artixSpiWe from rfl)]
      decide
    · have hsame : portAt es (t + 1 + i) = portAt es (t + 1) := by
        rw [hbetween _ (by omega) (by omega), hbetween _ (Nat.le_refl _) hq]
      have hregs : regsAt es (t + 1 + i) = regsAt es (t + 1) := congrArg SpiPort.regO hsame
      rw [hregs]
      exact ⟨hrise.1, rfl, rfl⟩

/-- The bits of a request on the link. -/
def frameOf (r : Request) : List Logic := Spi.wordBits (Spi.RegO.word ⟨r.1, r.2, true⟩) 64

/-- When everything has been written and the last frame is out, the link has carried the requests
that the port saw. -/
theorem received_seen {t : Nat} (hdone : ∀ e ∈ es, e.1 + 1430 < t) :
    (Spi.received Spi.init (regsAt es) t).words =
      ((SpiPort.reset.run (es.map Prod.snd)).seen.map Prod.snd).map frameOf := by
  cases t with
  | zero =>
    -- nothing has been written
    cases es with
    | nil => rfl
    | cons e es => exact absurd (hdone e List.mem_cons_self) (Nat.not_lt_zero _)
  | succ t =>
    have hall : portAt es t = SpiPort.reset.run (es.map Prod.snd) := by
      refine congrArg SpiPort.reset.run (upTo_all fun e he => ?_)
      have := hdone e he
      omega
    have hsent : Spi.sent (regsAt es) (t + 1) =
        (List.range (t + 1)).filter fun p => Spi.Rise (regsAt es) p := by
      refine List.filter_congr fun p _ => ?_
      rw [decide_eq_decide]
      refine ⟨And.left, fun hrise => ⟨hrise, ?_⟩⟩
      have hout := hdone _ (rise_mem hreq hpaced hrise)
      have hstart := Spi.startOf_le Spi.init p
      simp only at hout
      omega
    rw [Spi.received_words (pulses_of_paced hreq hpaced), hsent, ← hall, seen_eq hreq hpaced,
      List.map_map]
    rfl

end

/-! ## The chain -/

theorem Command.makes (c : Command) : Makes c.requests c.writes := by
  cases c with
  | eeprom addr data => exact makes_requests _
  | adcTable table fits => exact makes_requests _
  | ping => exact .done
  | fpLeds _ | eventNo _ | eventDelay _ | latchReset | forceTrip | keylock =>
    refine makes_others fun w hw => ?_
    simp only [Command.writes, List.mem_cons, List.not_mem_nil, or_false] at hw
    first
    | (rw [hw]; exact ⟨Reg.noConfusion, Reg.noConfusion, Reg.noConfusion⟩)
    | (rcases hw with rfl | rfl <;>
        exact ⟨Reg.noConfusion, Reg.noConfusion, Reg.noConfusion⟩)

theorem makes_commands (cs : List Command) :
    Makes (cs.flatMap Command.requests) (cs.flatMap Command.writes) := by
  induction cs with
  | nil => exact .done
  | cons c cs ih => exact c.makes.append ih

/-- **From the socket to the pins.** A client sends commands, however the stream is cut; the
register writes that its connection makes for them take effect at clocks that leave the SPI master
its time. Then the frames on the link are the requests of the commands, in order, each once: the
first of them at any time, and all of them in the end. -/
theorem spi_of_commands (cut : Nat → Nat) (cs : List Command) {wss : List (List RegWrite)}
    {es : List (Nat × RegWrite)}
    (hconn : connWrites (fun i => .data (cut i)) (frameBytes (cs.map Command.frame)) = some wss)
    (hwrites : es.map Prod.snd = wss.flatten) (hpaced : Paced es) :
    (∀ t, (Spi.received Spi.init (regsAt es) t).words <+:
        (cs.flatMap Command.requests).map frameOf) ∧
      ∀ t, (∀ e ∈ es, e.1 + 1430 < t) →
        (Spi.received Spi.init (regsAt es) t).words =
          (cs.flatMap Command.requests).map frameOf := by
  have hall := connWrites_commands cut (List.prefix_refl (frameBytes (cs.map Command.frame)))
  rw [parse_frameBytes, List.length_map, List.take_length, hconn, Option.some.injEq] at hall
  have hes : es.map Prod.snd = cs.flatMap Command.writes := by
    rw [hwrites, hall, List.flatMap_def]
  have hmakes : Makes (cs.flatMap Command.requests) (es.map Prod.snd) := by
    rw [hes]
    exact makes_commands cs
  have hend : ∀ t, (∀ e ∈ es, e.1 + 1430 < t) → (Spi.received Spi.init (regsAt es) t).words =
      (cs.flatMap Command.requests).map frameOf := by
    intro t hdone
    rw [received_seen hmakes.requesting hpaced hdone, hmakes.seen (p := SpiPort.reset) rfl]
    rfl
  refine ⟨fun t => ?_, hend⟩
  -- later on, there are all of them
  obtain ⟨u, hu⟩ := exists_after es
  have hlate : ∀ e ∈ es, e.1 + 1430 < t + (u + 1430) := by
    intro e he
    have := hu e he
    omega
  rw [← hend _ hlate]
  exact received_prefix (pulses_of_paced hmakes.requesting hpaced) t (u + 1430)

/-- The writes of a table of two words, one every 500 clocks. -/
def twoWords : List (Nat × RegWrite) :=
  [(500, ⟨.artixSpiData, 7⟩), (1000, ⟨.artixSpiAddr, adcAddr 0⟩), (1500, raiseWe),
    (2000, lowerWe), (2500, ⟨.artixSpiData, 8⟩), (3000, ⟨.artixSpiAddr, adcAddr 1⟩),
    (3500, raiseWe), (4000, lowerWe)]

theorem twoWords_paced : Paced twoWords := by
  have hshort : ∀ k < twoWords.length, ∀ a ∈ twoWords[k]?, ∀ b ∈ twoWords[k + 1]?,
      a.2 = raiseWe → b.1 ≤ a.1 + 1000 := by decide
  have hapart : ∀ a ∈ twoWords, ∀ b ∈ twoWords, a.2 = raiseWe → b.2 = raiseWe → a.1 < b.1 →
      a.1 + 1500 ≤ b.1 := by decide
  refine ⟨by unfold Ascending; decide, fun before t t' after he => ?_, fun t t' h h' hlt =>
    hapart _ h _ h' rfl rfl hlt⟩
  have hlen : before.length < twoWords.length := by
    rw [he, List.length_append, List.length_cons]
    omega
  refine hshort before.length hlen (t, raiseWe) ?_ (t', lowerWe) ?_ rfl
  · rw [he]
    simp
  · rw [he]
    simp

theorem spi_of_commands_twoWords :
    (Spi.received Spi.init (regsAt twoWords) 6000).words =
      [frameOf (adcAddr 0, 7), frameOf (adcAddr 1, 8)] := by
  have hconn := connWrites_commands (fun _ => 3)
    (List.prefix_refl (frameBytes ([Command.adcTable [7, 8] (by decide)].map Command.frame)))
  rw [parse_frameBytes, List.length_map, List.take_length] at hconn
  exact (spi_of_commands (fun _ => 3) _ hconn rfl twoWords_paced).2 6000 (by decide)

end Acmi.Control
