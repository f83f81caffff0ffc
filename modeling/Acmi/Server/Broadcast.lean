import Acmi.Server.Framing

/-!
# What a client gets to read

The statistics and the waveforms go to every client by `psc_send`, and `client_event` of `main.c`
sends each client one message of its own when its thread starts. A client is told all broadcasts
from the moment its slot has its number to the moment its thread frees the slot, without a gap, in
the order in which they took the mutex, and the greeting once somewhere between them
(`feed_of_run`). So any two clients agree on the order, whatever happens to their connections.

Mirroring notes:
- `serve` is the server with the callback of `main.c`: the thread of a client greets it before its
  first `recv`, and sends it nothing else of its own accord.
- The broadcasts are a parameter: any task may call `psc_send` with anything at any time.
- `git_hash` is never assigned; it is a parameter too.
-/

namespace Acmi.Server

open Acmi.Lib Acmi.Psc

/-! ## The program of `main.c` -/

/-- The message of `client_event`: `git_hash`, and a serial number that is not read yet. -/
def clientEvent (gitHash : BitVec 32) : Frame where
  msgid := 0x100
  body := le32 (htonl gitHash) ++ le32 0
  lt := show 8 < 2 ^ 32 by decide

/-- The server, and which clients have been greeted. -/
structure Served where
  server : State
  greeted : Nat → Bool

/-- A step of the server with `client_event` as `conf->conn`. -/
def serve (gitHash : BitVec 32) (s : Served) (e : Event) : Option Served :=
  match e with
  | .sendOne k m _ =>
    -- the one call of `psc_send_one`, at `PSC_CONN`
    if s.greeted k = false ∧ m.msgid = (clientEvent gitHash).msgid ∧
        m.body = (clientEvent gitHash).body then
      (step s.server e).map fun t => ⟨t, Function.update s.greeted k true⟩
    else none
  | .recv k | .free k =>
    if s.greeted k = true then (step s.server e).map fun t => ⟨t, s.greeted⟩ else none
  | _ => (step s.server e).map fun t => ⟨t, s.greeted⟩

/-- The program before the first `accept`. -/
def Served.init (listenSock : Int) : Served := ⟨Server.init listenSock, fun _ => false⟩

/-- The messages of `psc_send`. -/
def Event.broadcast : Event → List Frame
  | .send m _ => [m]
  | _ => []

/-! ## The stages of a connection -/

/-- Its number is not in a slot yet, it is, or it no longer is. -/
def Phase.stage : Phase → Nat
  | absent | accepted | refused | allocated _ => 0
  | assigned _ | created _ | running _ _ => 1
  | freed _ | closed => 2

theorem stage_eq_one_iff {p : Phase} : p.stage = 1 ↔ p.assignedSlot.isSome = true := by
  cases p <;> simp [Phase.stage, Phase.assignedSlot]

/-- One connection moves on. -/
theorem stage_move {s s' : State} {j : Nat} {p : Phase}
    (hphase : s'.phase = Function.update s.phase j p) (h : (s.phase j).stage ≤ p.stage) (k : Nat) :
    (s.phase k).stage ≤ (s'.phase k).stage := by
  rw [hphase, Function.update_apply]
  split_ifs with hk
  · rw [hk]
    exact h
  · exact Nat.le_refl _

theorem SameTable.stage {s s' : State} (h : SameTable s s') (k : Nat) :
    (s.phase k).stage ≤ (s'.phase k).stage :=
  Nat.le_of_eq (congrArg Phase.stage (congrFun h.phase k).symm)

/-- **A connection goes through its stages in order.** -/
theorem step_stage {s s' : State} {e : Event} (h : SlotInv s) (hstep : step s e = some s')
    (k : Nat) : (s.phase k).stage ≤ (s'.phase k).stage := by
  cases step_cases hstep with
  | acceptFailed => exact Nat.le_refl _
  | accept =>
    -- a new connection
    have habsent : s.phase s.next = .absent := (h.absent s.next).mpr (Nat.le_refl _)
    exact stage_move rfl (by rw [habsent]; exact Nat.zero_le _) k
  | alloc hcur =>
    obtain ⟨⟨p, -, hphase⟩, -⟩ := alloc_frame h
    rw [hphase]
    split_ifs with hk
    · rw [hk, hcur]
      exact Nat.zero_le _
    · exact Nat.le_refl _
  | drop hcur => exact stage_move rfl (by rw [hcur]; exact Nat.zero_le _) k
  | assign hcur => exact stage_move rfl (by rw [hcur]; exact Nat.zero_le _) k
  | spawn hcur => exact stage_move rfl (by rw [hcur]; exact Nat.le_refl 1) k
  | copy hj => exact stage_move rfl (by rw [hj]; exact Nat.le_refl 1) k
  | sendOne => exact (pscSendOne_same ..).stage k
  | recv => exact Nat.le_refl _
  | free hj => exact stage_move rfl (by rw [hj]; exact Nat.le_succ 1) k
  | close hj => exact stage_move rfl (by rw [hj]; exact Nat.le_refl 2) k
  | send => exact (pscSend_same ..).stage k

/-! ## What a client is told -/

/-- The broadcasts while the number of connection `k` is in a slot. -/
def heard (k : Nat) : State → Event → List Frame :=
  atStage (fun s => (s.phase k).stage) 1 fun _ e => e.broadcast

/-- What a step sends to connection `k`, and whether it is for this client alone. -/
def told (k : Nat) (s : State) : Event → List (Sending × Bool)
  | .send m nets =>
    match (s.phase k).assignedSlot with
    | some i => [((m, nets i), false)]
    | none => []
  | .sendOne j m net => if j = k then [((m, net), true)] else []
  | _ => []

theorem sentTo_eq (k : Nat) (s : State) (e : Event) :
    sentTo k s e = (told k s e).flatMap fun x => [x.1] := by
  cases e with
  | send m nets =>
    rw [sentTo, told]
    cases (s.phase k).assignedSlot <;> rfl
  | sendOne j m net =>
    rw [sentTo, told]
    split_ifs <;> rfl
  | _ => rfl

theorem heard_eq (k : Nat) (s : State) (e : Event) :
    heard k s e = (told k s e).flatMap fun x => if x.2 then [] else [x.1.1] := by
  cases e with
  | send m nets =>
    rw [heard, atStage, told]
    have hone := stage_eq_one_iff (p := s.phase k)
    cases hslot : (s.phase k).assignedSlot with
    | none =>
      rw [hslot] at hone
      exact if_neg fun h => Bool.false_ne_true (hone.mp h)
    | some i =>
      rw [hslot] at hone
      exact if_pos (hone.mpr rfl)
  | sendOne j m net =>
    have hnone : heard k s (.sendOne j m net) = [] := ite_self _
    rw [hnone, told]
    split_ifs <;> rfl
  | _ => exact ite_self _

/-- The broadcasts `bs`, with the greeting between them once it has been sent. -/
def Feed (gitHash : BitVec 32) (greeted : Bool) (bs ms : List Frame) : Prop :=
  if greeted = true then
    ∃ before after, bs = before ++ after ∧ ms = before ++ clientEvent gitHash :: after
  else ms = bs

/-- One more broadcast. -/
theorem Feed.hear {gitHash : BitVec 32} {greeted : Bool} {bs ms : List Frame}
    (h : Feed gitHash greeted bs ms) (m : Frame) :
    Feed gitHash greeted (bs ++ [m]) (ms ++ [m]) := by
  unfold Feed at h ⊢
  split_ifs with hg
  · rw [if_pos hg] at h
    obtain ⟨before, after, hbs, hms⟩ := h
    refine ⟨before, after ++ [m], ?_, ?_⟩
    · rw [hbs, List.append_assoc]
    · rw [hms, List.append_assoc]
      rfl
  · rw [if_neg hg] at h
    rw [h]

/-- The greeting. -/
theorem Feed.greet {gitHash : BitVec 32} {bs ms : List Frame} (h : Feed gitHash false bs ms) :
    Feed gitHash true bs (ms ++ [clientEvent gitHash]) := by
  have hms : ms = bs := h
  exact ⟨bs, [], (List.append_nil bs).symm, by rw [hms]⟩

/-! ## Runs -/

section

variable {gitHash : BitVec 32} {k : Nat}

/-- `serve` read backwards: a step of the server, and what it does to the greetings. -/
theorem serve_cases {s s' : Served} {e : Event} (h : serve gitHash s e = some s') :
    step s.server e = some s'.server ∧
      ((∃ j net, e = .sendOne j (clientEvent gitHash) net ∧ s.greeted j = false ∧
          s'.greeted = Function.update s.greeted j true) ∨
        ((∀ j m net, e ≠ .sendOne j m net) ∧ s'.greeted = s.greeted)) := by
  have hsame : ∀ {g : Nat → Bool}, (step s.server e).map (fun t => Served.mk t g) = some s' →
      step s.server e = some s'.server ∧ s'.greeted = g := by
    intro g hmap
    obtain ⟨t, ht, hs'⟩ := Option.map_eq_some_iff.mp hmap
    rw [← hs']
    exact ⟨ht, rfl⟩
  cases e with
  | sendOne j m net =>
    unfold serve at h
    dsimp only at h
    split_ifs at h with hok
    obtain ⟨hgreeted, hid, hbody⟩ := hok
    obtain ⟨hstep, hg⟩ := hsame h
    have hm : m = clientEvent gitHash := by
      cases m
      cases hid
      cases hbody
      rfl
    exact ⟨hstep, Or.inl ⟨j, net, by rw [hm], hgreeted, hg⟩⟩
  | recv j | free j =>
    unfold serve at h
    dsimp only at h
    split_ifs at h
    obtain ⟨hstep, hg⟩ := hsame h
    exact ⟨hstep, Or.inr ⟨fun _ _ _ => Event.noConfusion, hg⟩⟩
  | accept _ | alloc | drop | assign | spawn | copy _ | close _ | send _ _ =>
    obtain ⟨hstep, hg⟩ := hsame h
    exact ⟨hstep, Or.inr ⟨fun _ _ _ => Event.noConfusion, hg⟩⟩

/-- What has been sent to connection `k` is its feed. -/
def Fed (gitHash : BitVec 32) (k : Nat) (s : Served) (xs : List (Sending × Bool)) : Prop :=
  Feed gitHash (s.greeted k) (xs.flatMap fun x => if x.2 then [] else [x.1.1])
    (xs.map fun x => x.1.1)

theorem serve_fed {s s' : Served} {e : Event} {xs : List (Sending × Bool)} (h : Fed gitHash k s xs)
    (hstep : serve gitHash s e = some s') : Fed gitHash k s' (xs ++ told k s.server e) := by
  unfold Fed at h ⊢
  rw [List.flatMap_append, List.map_append]
  rcases (serve_cases hstep).2 with ⟨j, net, rfl, hnew, hgreeted⟩ | ⟨hother, hgreeted⟩
  · rw [hgreeted, told]
    split_ifs with hj
    · rw [hj, Function.update_self]
      rw [hj] at hnew
      rw [hnew] at h
      rw [List.flatMap_singleton, if_pos rfl, List.append_nil]
      exact h.greet
    · rw [Function.update_of_ne (Ne.symm hj), List.flatMap_nil, List.append_nil, List.map_nil,
        List.append_nil]
      exact h
  · rw [hgreeted]
    cases e with
    | sendOne j m net => exact absurd rfl (hother j m net)
    | send m nets =>
      rw [told]
      cases (s.server.phase k).assignedSlot with
      | some i => exact h.hear m
      | none =>
        rw [List.flatMap_nil, List.append_nil, List.map_nil, List.append_nil]
        exact h
    | accept _ | alloc | drop | assign | spawn | copy _ | recv _ | free _ | close _ =>
      show Feed _ _ (_ ++ []) (_ ++ [])
      rw [List.append_nil, List.append_nil]
      exact h

/-- The bytes of a connection are the beginning of what was sent to it. -/
theorem Framed.beginning {xs : List Sending} {bs : List Byte} {ok : Bool} (h : Framed xs bs ok) :
    bs <+: frameBytes (xs.map Prod.fst) := by
  rcases h with ⟨-, hbs⟩ | ⟨-, before, x, after, p, hxs, hp, hbs⟩
  · exact hbs ▸ List.prefix_refl _
  · rw [hbs, hxs, List.map_append, frameBytes_append, List.prefix_append_right_inj]
    exact hp.trans (List.prefix_append ..)

/-- The broadcasts that a client is told are one stretch of them all. -/
theorem heard_stretch {listenSock : Int} {es : List Event} {s : State}
    (hrun : runFrom step (init listenSock) es = some s) (k : Nat) :
    history step (heard k) (init listenSock) es <:+: es.flatMap Event.broadcast := by
  rw [← history_events Event.broadcast hrun]
  exact history_stage_infix (I := SlotInv)
    (fun t e t' h hs => ⟨step_slotInv h hs, step_stage h hs k⟩) (init_slotInv listenSock) hrun

/-- The feed of a client is what is sent to it. -/
theorem feed_sent {listenSock : Int} {es : List Event} {s : Served}
    (hrun : runFrom (serve gitHash) (.init listenSock) es = some s) (k : Nat) :
    runFrom step (init listenSock) es = some s.server ∧
      Feed gitHash (s.greeted k) (history step (heard k) (init listenSock) es)
        ((history step (sentTo k) (init listenSock) es).map Prod.fst) := by
  have hsteps : ∀ t e t', serve gitHash t e = some t' → step t.server e = some t'.server :=
    fun _ _ _ h => (serve_cases h).1
  obtain ⟨hserver, htold⟩ := runFrom_project hsteps (told k) hrun
  refine ⟨hserver, ?_⟩
  have hfed : Fed gitHash k s (history step (told k) (init listenSock) es) := by
    have h := runFrom_history_of_meets (C := fun _ _ => True) (f := fun t e => told k t.server e)
      (I := Fed gitHash k) (fun _ _ _ _ h _ hs => serve_fed h hs) es (.init listenSock) s [] rfl
      (StepsMeet.of_forall es _ fun _ _ _ => trivial) hrun
    rwa [List.nil_append, htold] at h
  have hheard : history step (heard k) (init listenSock) es =
      (history step (told k) (init listenSock) es).flatMap
        fun x => if x.2 then [] else [x.1.1] := by
    rw [← history_flatMap]
    exact congrArg (fun f => history step f (init listenSock) es)
      (funext fun t => funext fun e => heard_eq k t e)
  have hsent : (history step (sentTo k) (init listenSock) es).map Prod.fst =
      (history step (told k) (init listenSock) es).map fun x => x.1.1 := by
    have hsentTo : sentTo k = fun t e => (told k t e).flatMap fun x => [x.1] :=
      funext fun t => funext fun e => sentTo_eq k t e
    rw [hsentTo, history_flatMap, List.map_flatMap]
    exact List.map_eq_flatMap.symm
  rw [hheard, hsent]
  exact hfed

/-- The connection carries the beginning of what is sent to it, and all of it if no send fails. -/
theorem wire_sent {listenSock : Int} {es : List Event} {s : State}
    (hrun : runFrom step (init listenSock) es = some s)
    (hown : StepsMeet step OwnNumber (init listenSock) es) (k : Nat) :
    s.wire k <+: frameBytes ((history step (sentTo k) (init listenSock) es).map Prod.fst) ∧
      ((∀ x ∈ history step (sentTo k) (init listenSock) es,
          (pscSendmsg x.2 x.1.msgid x.1.body ⟨[], 0⟩).1 = none) →
        s.wire k = frameBytes ((history step (sentTo k) (init listenSock) es).map Prod.fst)) := by
  have hlink : Link k s (history step (sentTo k) (init listenSock) es) :=
    run_link (init_link listenSock k) hown hrun
  have hframed := alone_spec (history step (sentTo k) (init listenSock) es)
  rw [← hlink.wire] at hframed
  refine ⟨hframed.beginning, fun hall => ?_⟩
  rcases hframed with ⟨-, hbs⟩ | ⟨hfail, -⟩
  · exact hbs
  · rw [alone_ok hall] at hfail
    exact absurd hfail.symm Bool.false_ne_true

/-- **Every client is told the same.** What is sent to a client are the broadcasts while its number
is in a slot, one stretch of all the broadcasts, with the greeting between them. Its connection
carries the beginning of that, to the last byte as long as no send fails, and what can be read
from it are the first of these messages. -/
theorem feed_of_run {listenSock : Int} {es : List Event} {s : Served}
    (hrun : runFrom (serve gitHash) (.init listenSock) es = some s)
    (hown : StepsMeet step OwnNumber (init listenSock) es) (k : Nat) :
    let bs := history step (heard k) (init listenSock) es
    bs <:+: es.flatMap Event.broadcast ∧
      ∃ ms, Feed gitHash (s.greeted k) bs ms ∧ s.server.wire k <+: frameBytes ms ∧
        parse (s.server.wire k) <+: ms ∧
        ((∀ x ∈ history step (sentTo k) (init listenSock) es,
            (pscSendmsg x.2 x.1.msgid x.1.body ⟨[], 0⟩).1 = none) →
          s.server.wire k = frameBytes ms) := by
  intro bs
  obtain ⟨hserver, hfeed⟩ := feed_sent hrun k
  obtain ⟨hwire, hall⟩ := wire_sent hserver hown k
  exact ⟨heard_stretch hserver k, _, hfeed, hwire, parse_of_prefix hwire, hall⟩

end

/-- A client is told of the statistics before it is greeted and after. -/
def statsTwice : List Event :=
  [.accept 1, .alloc, .assign, .send ⟨101#16, [1], by decide⟩ fun _ _ => .took 3, .spawn, .copy 0,
    .sendOne 0 (clientEvent 7) fun _ => .took 3, .recv 0,
    .send ⟨101#16, [2], by decide⟩ fun _ _ => .took 3]

theorem feed_of_run_statsTwice : ∃ s, runFrom (serve 7) (.init 0) statsTwice = some s ∧
    ∃ ms, Feed 7 (s.greeted 0) (history step (heard 0) (init 0) statsTwice) ms ∧
      s.server.wire 0 <+: frameBytes ms := by
  have hown : StepsMeet step OwnNumber (init 0) statsTwice := by
    refine ⟨Or.inr ⟨by decide, fun k hk => absurd hk (Nat.not_lt_zero k)⟩, fun t _ => ?_⟩
    refine StepsMeet.of_forall _ t fun e he u => ?_
    simp only [List.mem_cons, List.not_mem_nil, or_false] at he
    rcases he with rfl | rfl | rfl | rfl | rfl | rfl | rfl | rfl <;> exact trivial
  obtain ⟨s, hs⟩ := Option.isSome_iff_exists.mp
    (by decide +kernel : (runFrom (serve 7) (.init 0) statsTwice).isSome = true)
  obtain ⟨-, ms, hfeed, hwire, -⟩ := feed_of_run hs hown 0
  exact ⟨s, hs, ms, hfeed, hwire⟩

end Acmi.Server
