import Acmi.Control.Handlers
import Acmi.Lib.Interleave

/-!
# The SPI registers under concurrent handlers

A request to the Artix is four writes to three registers, and every client has a handler
thread of its own that makes them without a lock. Here the handlers run as `Threads`, one
register write a step, on the three registers; the port notes the pair it is given at every
0-to-1 transition of `ARTIX_SPI_WE`.

`Undisturbed` says of a step that it does not get between another handler's writes: it does
not change the data or the address of a request that is being made, and it does not raise
the line while another handler holds it up. `requests_of_run` is what holds in every run of
undisturbed steps.
-/

namespace Acmi.Control

open Acmi.Lib Acmi.Psc

/-! ## The requests of a message -/

/-- The address and the data of one request. -/
abbrev Request := BitVec 32 × BitVec 32

def adcRequests (msg : Mem) (msglen : BitVec 32) : List Request :=
  let tableLen := msglen.toNat / 4
  if tableLen > 16000 then []
  else (List.range tableLen).map fun i =>
    ((BitVec.ofNat 32 i <<< 16) ||| adcTable, htonl (msg.load32 (4 * i)))

def eepromRequests (msg : Mem) : List Request :=
  ((eepromCalls (htonl (msg.load32 0)) (htonl (msg.load32 4))).flatMap fun c =>
    [c, (eepromTrig, 1)]) ++ [(eepromReadall, 1)]

/-- One message, as `client_msg` is given it. -/
structure Message where
  msgid : BitVec 16
  msglen : BitVec 32
  msg : Mem

def Message.writes (x : Message) : List RegWrite := clientMsg x.msgid x.msglen x.msg

/-- The requests a message asks for, in order. -/
def Message.requests (x : Message) : List Request :=
  match x.msgid.toNat with
  | 2 => eepromRequests x.msg
  | 3 => adcRequests x.msg x.msglen
  | _ => []

/-- A write that is not to one of the three registers. -/
def RegWrite.Other (w : RegWrite) : Prop :=
  w.reg ≠ .artixSpiData ∧ w.reg ≠ .artixSpiAddr ∧ w.reg ≠ .artixSpiWe

/-- The writes make these requests, one after the other, and other writes in between. -/
inductive Makes : List Request → List RegWrite → Prop
  | done : Makes [] []
  | request {r : Request} {rs : List Request} {ws : List RegWrite} (h : Makes rs ws) :
      Makes (r :: rs) (spiRequest r.1 r.2 ++ ws)
  | other {w : RegWrite} {rs : List Request} {ws : List RegWrite} (hw : w.Other) (h : Makes rs ws) :
      Makes rs (w :: ws)

theorem Makes.append {rs rs' : List Request} {ws ws' : List RegWrite} (h : Makes rs ws)
    (h' : Makes rs' ws') : Makes (rs ++ rs') (ws ++ ws') := by
  induction h with
  | done => exact h'
  | request _ ih =>
    rw [List.cons_append, List.append_assoc]
    exact .request ih
  | other hw _ ih => exact .other hw ih

theorem makes_requests (rs : List Request) :
    Makes rs (rs.flatMap fun r => spiRequest r.1 r.2) := by
  induction rs with
  | nil => exact .done
  | cons r rs ih => exact .request ih

theorem makes_others {ws : List RegWrite} (h : ∀ w ∈ ws, w.Other) : Makes [] ws := by
  induction ws with
  | nil => exact .done
  | cons w ws ih =>
    exact .other (h w List.mem_cons_self) (ih fun v hv => h v (List.mem_cons_of_mem w hv))

/-- A register command stays away from the SPI registers. -/
theorem regCommand_others (addr data : BitVec 32) : ∀ w ∈ regCommand addr data, w.Other := by
  have hone : ∀ {P : Prop} [Decidable P] {ws : List RegWrite}, (∀ w ∈ ws, w.Other) →
      ∀ w ∈ (if P then ws else []), w.Other := by
    intro P _ ws h w hw
    split at hw
    next => exact h w hw
    next => exact absurd hw List.not_mem_nil
  unfold regCommand
  repeat' split
  · simp [setFpleds, RegWrite.Other]
  · simp
  · simp [RegWrite.Other]
  · simp [RegWrite.Other]
  · exact hone (by simp [RegWrite.Other])
  · exact hone (by simp [RegWrite.Other])
  · exact hone (by simp [RegWrite.Other])
  · simp

/-- **A message makes its requests.** -/
theorem Message.makes (x : Message) : Makes x.requests x.writes := by
  unfold Message.requests Message.writes clientMsg
  split
  next hid =>
    rw [hid]
    have h := makes_requests (eepromRequests x.msg)
    unfold eepromRequests at h ⊢
    rw [List.flatMap_append, List.flatMap_assoc] at h
    simpa [eepromSettings, writeArtixEeprom, readArtixEepromSettings] using h
  next hid =>
    rw [hid]
    have h := makes_requests (adcRequests x.msg x.msglen)
    unfold adcRequests at h ⊢
    simp only [writeAdcTable]
    split
    next => exact .done
    next hlen =>
      rw [if_neg hlen, List.flatMap_map] at h
      exact h
  next hne2 hne3 =>
    split
    next => exact makes_others (regCommand_others _ _)
    next hid => exact absurd hid hne2
    next hid => exact absurd hid hne3
    next => exact .done

/-! ## The port and the handlers -/

/-- The three registers, and at every 0-to-1 transition of `ARTIX_SPI_WE` so far the address
and data they held, with the handler whose write it was. -/
structure SpiPort where
  data : BitVec 32
  addr : BitVec 32
  we : BitVec 32
  seen : List (Nat × Request)

/-- One `Xil_Out32` of handler `t`. -/
def SpiPort.write (p : SpiPort) (t : Nat) (w : RegWrite) : SpiPort :=
  match w.reg with
  | .artixSpiData => { p with data := w.val }
  | .artixSpiAddr => { p with addr := w.val }
  | .artixSpiWe =>
    { p with
      we := w.val
      seen := if p.we = 0 ∧ w.val = 1 then p.seen ++ [(t, p.addr, p.data)] else p.seen }
  | _ => p

/-- The handlers at work: what each still has to write, and the port. -/
abbrev Handlers := Threads Nat RegWrite SpiPort

/-- One register write of handler `t`. -/
abbrev handlerStep : Handlers → Nat → Option Handlers := Threads.step SpiPort.write

/-- Every handler has its messages before it; the line is low. -/
def start (msgs : Nat → List Message) (data addr : BitVec 32) : Handlers :=
  ⟨fun t => (msgs t).flatMap Message.writes, ⟨data, addr, 0, []⟩⟩

def raiseWe : RegWrite := ⟨.artixSpiWe, 1⟩
def lowerWe : RegWrite := ⟨.artixSpiWe, 0⟩

/-- Handler `t`'s next write does not get between the writes of another handler's request:
where another has its data written and its pulse still to come, the data stays; where another
is about to raise the line, the address stays; and the line is not raised while it is up. -/
def Undisturbed (s : Handlers) (t : Nat) : Prop :=
  ∀ w ws, s.todo t = w :: ws → ∀ u, u ≠ t → ∀ w' ws', s.todo u = w' :: ws' →
    (w.reg = .artixSpiData → w'.reg = .artixSpiAddr ∨ w' = raiseWe → w.val = s.shared.data) ∧
    (w.reg = .artixSpiAddr → w' = raiseWe → w.val = s.shared.addr) ∧
    (w = raiseWe → w' ≠ lowerWe)

/-! ## The invariant -/

/-- Where a handler is: what requests it has not pulsed yet, and which of the registers hold
the one it is making. -/
inductive At (p : SpiPort) : List Request → List RegWrite → Prop
  | between {rs ws} (h : Makes rs ws) : At p rs ws
  | dataWritten {r rs ws} (h : Makes rs ws) (hdata : p.data = r.2) :
      At p (r :: rs) (⟨.artixSpiAddr, r.1⟩ :: raiseWe :: lowerWe :: ws)
  | ready {r rs ws} (h : Makes rs ws) (hdata : p.data = r.2) (haddr : p.addr = r.1) :
      At p (r :: rs) (raiseWe :: lowerWe :: ws)
  | pulsing {rs ws} (h : Makes rs ws) : At p rs (lowerWe :: ws)

/-- The requests before handler `t`. -/
def requestsOf (msgs : Nat → List Message) (t : Nat) : List Request :=
  (msgs t).flatMap Message.requests

/-- Handler `t`'s requests are those seen from it and those still to come. -/
def Accounted (msgs : Nat → List Message) (s : Handlers) (t : Nat) : Prop :=
  ∃ rs, requestsOf msgs t = Threads.part t s.shared.seen ++ rs ∧ At s.shared rs (s.todo t)

/-- The line is up exactly while one handler has to lower it. -/
def LineInv (s : Handlers) : Prop :=
  (s.shared.we = 0 ∧ ∀ t ws, s.todo t ≠ lowerWe :: ws) ∨
  ∃ t ws, s.todo t = lowerWe :: ws ∧ ∀ u ws, u ≠ t → s.todo u ≠ lowerWe :: ws

structure RaceInv (msgs : Nat → List Message) (s : Handlers) : Prop where
  accounted : ∀ t, Accounted msgs s t
  line : LineInv s

/-- Between requests no handler is about to raise or lower the line. -/
theorem Makes.head {rs : List Request} {w : RegWrite} {ws : List RegWrite}
    (h : Makes rs (w :: ws)) :
    w.Other ∧ Makes rs ws ∨ ∃ r rs' ws', rs = r :: rs' ∧ Makes rs' ws' ∧
      w = ⟨.artixSpiData, r.2⟩ ∧ ws = ⟨.artixSpiAddr, r.1⟩ :: raiseWe :: lowerWe :: ws' := by
  generalize hv : w :: ws = v at h
  cases h with
  | done => exact absurd hv (by simp)
  | @request r rs' ws' h' =>
    obtain ⟨rfl, rfl⟩ := List.cons.inj hv
    exact Or.inr ⟨r, rs', ws', rfl, h', rfl, rfl⟩
  | other hw h' =>
    obtain ⟨rfl, rfl⟩ := List.cons.inj hv
    exact Or.inl ⟨hw, h'⟩

/-- A handler keeps its place when the data and address it relies on stay. -/
theorem At.mono {p p' : SpiPort} {rs : List Request} {todo : List RegWrite} (h : At p rs todo)
    (hdata : ∀ w ws, todo = w :: ws → w.reg = .artixSpiAddr ∨ w = raiseWe → p'.data = p.data)
    (haddr : ∀ w ws, todo = w :: ws → w = raiseWe → p'.addr = p.addr) : At p' rs todo := by
  cases h with
  | between h => exact .between h
  | dataWritten h hd =>
    exact .dataWritten h ((hdata _ _ rfl (Or.inl rfl)).trans hd)
  | ready h hd ha =>
    exact .ready h ((hdata _ _ rfl (Or.inr rfl)).trans hd) ((haddr _ _ rfl rfl).trans ha)
  | pulsing h => exact .pulsing h

theorem start_raceInv (msgs : Nat → List Message) (data addr : BitVec 32) :
    RaceInv msgs (start msgs data addr) := by
  have hmakes : ∀ t, Makes (requestsOf msgs t) ((start msgs data addr).todo t) := by
    intro t
    show Makes ((msgs t).flatMap Message.requests) ((msgs t).flatMap Message.writes)
    induction msgs t with
    | nil => exact .done
    | cons x xs ih => exact x.makes.append ih
  refine ⟨fun t => ⟨requestsOf msgs t, rfl, .between (hmakes t)⟩, Or.inl ⟨rfl, fun t ws he => ?_⟩⟩
  have h := hmakes t
  rw [he] at h
  rcases h.head with ⟨hw, -⟩ | ⟨r, rs', ws', -, -, hw, -⟩
  · exact hw.2.2 rfl
  · exact absurd hw (by simp [lowerWe])

/-! ## What a write does to the port -/

theorem write_data (p : SpiPort) (t : Nat) (w : RegWrite) :
    (p.write t w).data = if w.reg = .artixSpiData then w.val else p.data := by
  unfold SpiPort.write
  cases w.reg <;> rfl

theorem write_addr (p : SpiPort) (t : Nat) (w : RegWrite) :
    (p.write t w).addr = if w.reg = .artixSpiAddr then w.val else p.addr := by
  unfold SpiPort.write
  cases w.reg <;> rfl

theorem write_we (p : SpiPort) (t : Nat) (w : RegWrite) :
    (p.write t w).we = if w.reg = .artixSpiWe then w.val else p.we := by
  unfold SpiPort.write
  cases w.reg <;> rfl

theorem write_seen (p : SpiPort) (t : Nat) (w : RegWrite) :
    (p.write t w).seen = if w.reg = .artixSpiWe ∧ p.we = 0 ∧ w.val = 1 then
      p.seen ++ [(t, p.addr, p.data)] else p.seen := by
  unfold SpiPort.write
  cases w.reg <;> simp

/-- The five kinds of a handler's next write. -/
theorem At.next {p : SpiPort} {rs : List Request} {w : RegWrite} {ws : List RegWrite}
    (h : At p rs (w :: ws)) :
    (w.Other ∧ Makes rs ws) ∨
    (∃ r rs' ws', rs = r :: rs' ∧ Makes rs' ws' ∧ w = ⟨.artixSpiData, r.2⟩ ∧
      ws = ⟨.artixSpiAddr, r.1⟩ :: raiseWe :: lowerWe :: ws') ∨
    (∃ r rs' ws', rs = r :: rs' ∧ Makes rs' ws' ∧ w = ⟨.artixSpiAddr, r.1⟩ ∧
      ws = raiseWe :: lowerWe :: ws' ∧ p.data = r.2) ∨
    (∃ r rs' ws', rs = r :: rs' ∧ Makes rs' ws' ∧ w = raiseWe ∧ ws = lowerWe :: ws' ∧
      p.data = r.2 ∧ p.addr = r.1) ∨
    (w = lowerWe ∧ Makes rs ws) := by
  generalize hv : w :: ws = v at h
  cases h with
  | between h =>
    rw [← hv] at h
    exact h.head.elim Or.inl fun h => Or.inr (Or.inl h)
  | @dataWritten r rs' ws' h hd =>
    obtain ⟨rfl, rfl⟩ := List.cons.inj hv
    exact Or.inr (Or.inr (Or.inl ⟨r, rs', ws', rfl, h, rfl, rfl, hd⟩))
  | @ready r rs' ws' h hd ha =>
    obtain ⟨rfl, rfl⟩ := List.cons.inj hv
    exact Or.inr (Or.inr (Or.inr (Or.inl ⟨r, rs', ws', rfl, h, rfl, rfl, hd, ha⟩)))
  | pulsing h =>
    obtain ⟨rfl, rfl⟩ := List.cons.inj hv
    exact Or.inr (Or.inr (Or.inr (Or.inr ⟨rfl, h⟩)))

theorem Makes.not_lowerWe {rs : List Request} {ws : List RegWrite} (h : Makes rs ws) :
    ∀ vs, ws ≠ lowerWe :: vs := by
  rintro vs rfl
  rcases h.head with ⟨hw, -⟩ | ⟨r, rs', ws', -, -, hw, -⟩
  · exact hw.2.2 rfl
  · exact absurd hw (by simp [lowerWe])

/-- The line stays as it is while handler `t` neither raises nor lowers it. -/
theorem LineInv.keep {s : Handlers} (h : LineInv s) {t : Nat} {ws : List RegWrite} {p : SpiPort}
    (hwe : p.we = s.shared.we) (hold : ∀ vs, s.todo t ≠ lowerWe :: vs)
    (hnew : ∀ vs, ws ≠ lowerWe :: vs) : LineInv ⟨Function.update s.todo t ws, p⟩ := by
  have htodo : ∀ u vs, s.todo u ≠ lowerWe :: vs →
      Function.update s.todo t ws u ≠ lowerWe :: vs := by
    intro u vs hu
    by_cases hut : u = t
    · rw [hut, Function.update_self]
      exact hnew vs
    · rw [Function.update_of_ne hut]
      exact hu
  rcases h with ⟨hlow, hall⟩ | ⟨u, us, hu, hothers⟩
  · exact Or.inl ⟨hwe.trans hlow, fun v vs => htodo v vs (hall v vs)⟩
  · have hut : u ≠ t := by
      rintro rfl
      exact hold us hu
    refine Or.inr ⟨u, us, ?_, fun v vs hv => htodo v vs (hothers v vs hv)⟩
    show Function.update s.todo t ws u = _
    rw [Function.update_of_ne hut]
    exact hu

/-! ## Steps and runs -/

/-- The other handlers keep their accounts. -/
theorem Accounted.other {msgs : Nat → List Message} {s : Handlers} {t u : Nat} {w : RegWrite}
    {ws : List RegWrite} (h : Accounted msgs s u) (hund : Undisturbed s t)
    (htodo : s.todo t = w :: ws) (hut : u ≠ t) :
    Accounted msgs ⟨Function.update s.todo t ws, s.shared.write t w⟩ u := by
  obtain ⟨rs, hreq, hat⟩ := h
  refine ⟨rs, ?_, ?_⟩
  · rw [hreq]
    show Threads.part u _ ++ _ = Threads.part u (s.shared.write t w).seen ++ _
    rw [write_seen]
    split
    next =>
      rw [Threads.part_append, Threads.part_singleton, if_neg (Ne.symm hut), List.append_nil]
    next => rfl
  · show At (s.shared.write t w) rs (Function.update s.todo t ws u)
    rw [Function.update_of_ne hut]
    refine hat.mono (fun w' ws' hu hw' => ?_) fun w' ws' hu hw' => ?_
    · rw [write_data]
      split
      next hreg => exact (hund w ws htodo u hut w' ws' hu).1 hreg hw'
      next => rfl
    · rw [write_addr]
      split
      next hreg => exact (hund w ws htodo u hut w' ws' hu).2.1 hreg hw'
      next => rfl

/-- A write of handler `t` that is not to `ARTIX_SPI_WE`. -/
theorem RaceInv.write_quiet {msgs : Nat → List Message} {s : Handlers} {t : Nat} {w : RegWrite}
    {ws : List RegWrite} {rs : List Request} (h : RaceInv msgs s) (htodo : s.todo t = w :: ws)
    (hne : w.reg ≠ .artixSpiWe) (hreq : requestsOf msgs t = Threads.part t s.shared.seen ++ rs)
    (hat : At (s.shared.write t w) rs ws) (hnext : ∀ vs, ws ≠ lowerWe :: vs) :
    Accounted msgs ⟨Function.update s.todo t ws, s.shared.write t w⟩ t ∧
      LineInv ⟨Function.update s.todo t ws, s.shared.write t w⟩ := by
  have hseen : (s.shared.write t w).seen = s.shared.seen := by
    rw [write_seen, if_neg fun hc => hne hc.1]
  have hwe : (s.shared.write t w).we = s.shared.we := by rw [write_we, if_neg hne]
  refine ⟨⟨rs, ?_, ?_⟩, h.line.keep hwe (fun vs hvs => ?_) hnext⟩
  · rw [hreq]
    show _ = Threads.part t (s.shared.write t w).seen ++ rs
    rw [hseen]
  · show At _ rs (Function.update s.todo t ws t)
    rw [Function.update_self]
    exact hat
  · rw [htodo] at hvs
    exact hne (by rw [(List.cons.inj hvs).1]; rfl)

/-- The pulse: nobody else holds the line up, so this is a transition, with the handler's own
address and data. -/
theorem RaceInv.write_raise {msgs : Nat → List Message} {s : Handlers} {t : Nat} {r : Request}
    {rs : List Request} {ws : List RegWrite} (h : RaceInv msgs s) (hund : Undisturbed s t)
    (htodo : s.todo t = raiseWe :: lowerWe :: ws) (hmakes : Makes rs ws)
    (hreq : requestsOf msgs t = Threads.part t s.shared.seen ++ r :: rs)
    (hdata : s.shared.data = r.2) (haddr : s.shared.addr = r.1) :
    Accounted msgs ⟨Function.update s.todo t (lowerWe :: ws), s.shared.write t raiseWe⟩ t ∧
      LineInv ⟨Function.update s.todo t (lowerWe :: ws), s.shared.write t raiseWe⟩ := by
  have hlower : ∀ u vs, s.todo u ≠ lowerWe :: vs := by
    intro u vs hu
    by_cases hut : u = t
    · rw [hut, htodo] at hu
      exact absurd (List.cons.inj hu).1 (by simp [raiseWe, lowerWe])
    · exact (hund _ _ htodo u hut _ _ hu).2.2 rfl rfl
  have hlow : s.shared.we = 0 := by
    rcases h.line with ⟨hlow, -⟩ | ⟨u, us, hu, -⟩
    · exact hlow
    · exact absurd hu (hlower u us)
  have hself : Function.update s.todo t (lowerWe :: ws) t = lowerWe :: ws :=
    Function.update_self ..
  refine ⟨⟨rs, ?_, ?_⟩, Or.inr ⟨t, ws, hself, fun u vs hut => ?_⟩⟩
  · show _ = Threads.part t (s.shared.write t raiseWe).seen ++ rs
    rw [write_seen, if_pos ⟨rfl, hlow, rfl⟩, Threads.part_append, Threads.part_singleton,
      if_pos rfl, hreq, hdata, haddr, List.append_assoc]
    rfl
  · show At _ _ (Function.update s.todo t _ t)
    rw [hself]
    exact .pulsing hmakes
  · show Function.update s.todo t _ u ≠ _
    rw [Function.update_of_ne hut]
    exact hlower u vs

/-- The end of the pulse: afterwards nobody holds the line up. -/
theorem RaceInv.write_lower {msgs : Nat → List Message} {s : Handlers} {t : Nat}
    {rs : List Request} {ws : List RegWrite} (h : RaceInv msgs s)
    (htodo : s.todo t = lowerWe :: ws) (hmakes : Makes rs ws)
    (hreq : requestsOf msgs t = Threads.part t s.shared.seen ++ rs) :
    Accounted msgs ⟨Function.update s.todo t ws, s.shared.write t lowerWe⟩ t ∧
      LineInv ⟨Function.update s.todo t ws, s.shared.write t lowerWe⟩ := by
  have hself : Function.update s.todo t ws t = ws := Function.update_self ..
  refine ⟨⟨rs, ?_, ?_⟩, Or.inl ⟨rfl, fun u vs => ?_⟩⟩
  · show _ = Threads.part t (s.shared.write t lowerWe).seen ++ rs
    rw [write_seen, if_neg fun hc => absurd hc.2.2 (by simp [lowerWe])]
    exact hreq
  · show At _ _ (Function.update s.todo t _ t)
    rw [hself]
    exact .between hmakes
  · show Function.update s.todo t ws u ≠ _
    by_cases hut : u = t
    · rw [hut, hself]
      exact hmakes.not_lowerWe vs
    · rw [Function.update_of_ne hut]
      rcases h.line with ⟨-, hall⟩ | ⟨v, us, hv, hothers⟩
      · exact absurd htodo (hall t ws)
      · -- the one that held it up was `t`
        have hvt : v = t := by
          by_contra hne
          exact hothers t ws (Ne.symm hne) htodo
        exact hothers u vs (hvt ▸ hut)

/-- **An undisturbed write keeps the invariant.** -/
theorem step_raceInv {msgs : Nat → List Message} {s s' : Handlers} {t : Nat}
    (h : RaceInv msgs s) (hund : Undisturbed s t) (hstep : handlerStep s t = some s') :
    RaceInv msgs s' := by
  obtain ⟨w, ws, htodo, rfl⟩ := Threads.step_some hstep
  -- what is left to show is handler `t`'s own account and the line
  suffices hown : Accounted msgs ⟨Function.update s.todo t ws, s.shared.write t w⟩ t ∧
      LineInv ⟨Function.update s.todo t ws, s.shared.write t w⟩ by
    refine ⟨fun u => ?_, hown.2⟩
    by_cases hut : u = t
    · rw [hut]
      exact hown.1
    · exact (h.accounted u).other hund htodo hut
  obtain ⟨rs, hreq, hat⟩ := h.accounted t
  rw [htodo] at hat
  rcases hat.next with ⟨hw, hmakes⟩ | ⟨r, rs', ws', rfl, hmakes, rfl, rfl⟩ |
    ⟨r, rs', ws', rfl, hmakes, rfl, rfl, hd⟩ | ⟨r, rs', ws', rfl, hmakes, rfl, rfl, hd, ha⟩ |
    ⟨rfl, hmakes⟩
  · exact h.write_quiet htodo hw.2.2 hreq (.between hmakes) hmakes.not_lowerWe
  · exact h.write_quiet htodo (by simp) hreq (.dataWritten hmakes rfl) (by simp [lowerWe])
  · exact h.write_quiet htodo (by simp) hreq (.ready hmakes hd rfl) (by simp [lowerWe, raiseWe])
  · exact h.write_raise hund htodo hmakes hreq hd ha
  · exact h.write_lower htodo hmakes hreq

/-- A handler that is the only one with anything to write is undisturbed throughout. -/
theorem alone_undisturbed (t : Nat) : ∀ (n : Nat) (s : Handlers), (∀ u, u ≠ t → s.todo u = []) →
    StepsMeet handlerStep Undisturbed s (List.replicate n t) := by
  intro n
  induction n with
  | zero =>
    intro s _
    exact trivial
  | succ n ih =>
    intro s halone
    refine ⟨fun w ws _ u hut w' ws' hu => ?_, fun s' hs => ih s' fun u hut => ?_⟩
    · rw [halone u hut] at hu
      exact absurd hu (by simp)
    · obtain ⟨w, ws, -, rfl⟩ := Threads.step_some hs
      exact (Function.update_of_ne hut ..).trans (halone u hut)

/-- An ADC table of one word. -/
def oneWordTable (b : Byte) : Message := ⟨3, 4, fun i => if i = 3 then b else 0⟩

end Acmi.Control
