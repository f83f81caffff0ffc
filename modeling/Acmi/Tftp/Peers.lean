import Acmi.Tftp.Timeout

/-!
# `tftp_server.c`: the peer of a session

The peer is who sent the request. What others send does not get into the session: taking it out of
a run changes nothing for the peer or for the files (`session_isolated`). The check treats port 0
and the address 0.0.0.0 as "no session", so the peer is told apart from the others exactly if it
has neither (`fromPeer_iff`).
-/

namespace Acmi.Tftp

open Acmi.Lib

section

variable {σ η κ : Type} {c : Context σ η κ} {a : Answers κ} {s s' : State σ η} {d : Datagram}
  {e : Event κ} {h : η}

/-- A tick, or a datagram that a session of the sender of `d` takes for its own. -/
def fromPeer (d : Datagram) : Event κ → Bool
  | .recv d' _ => (d.port == 0 || d'.port == d.port) && (d.addr == 0 || d.addr == d'.addr)
  | .tick _ => true

/-- The session is one of the sender of `d`. -/
structure Owned (d : Datagram) (s : State σ η) : Prop where
  addr : s.addr = d.addr
  port : s.port = d.port

theorem Owned.stranger_iff (howned : Owned d s) (d' : Datagram) (a : Answers κ) :
    Stranger s d' ↔ fromPeer d (.recv d' a) = false := by
  unfold Stranger fromPeer
  rw [howned.addr, howned.port]
  simp only [Bool.and_eq_false_iff, Bool.or_eq_false_iff, beq_eq_false_iff_ne]

/-- A session has an owner until it is closed. -/
theorem owned_step (howned : Owned d s) (hopen : s.handle.isSome = true)
    (hopen' : s'.handle.isSome = true) (hstep : serverStep c s e = some s') : Owned d s' := by
  obtain ⟨h, hopen⟩ := Option.isSome_iff_exists.mp hopen
  have hheld : ∀ {t : State σ η}, Held t s' → t.addr = s.addr → t.port = s.port → Owned d s' := by
    intro t hh haddr hport
    exact ⟨(hh.addr.trans haddr).trans howned.addr, (hh.port.trans hport).trans howned.port⟩
  have hgone : ∀ {files : σ}, Gone files s' → Owned d s' := by
    intro files hgone
    rw [hgone.handle] at hopen'
    exact absurd hopen' Bool.false_ne_true
  cases turn hopen hstep with
  | held hh => exact hheld hh rfl rfl
  | stored _ _ _ _ hh => exact hheld hh rfl rfl
  | sent _ _ _ _ hh => exact hheld hh rfl rfl
  | unsent _ _ _ _ hh => exact hheld hh rfl rfl
  | storedLast _ _ _ _ hg => exact hgone hg
  | failed _ _ _ hg => exact hgone hg
  | readFailed _ _ _ _ hg => exact hgone hg
  | finished _ _ _ hg => exact hgone hg
  | timedOut hg => exact hgone hg

/-- The owner is the sender of the request. -/
theorem owned_of_opened (hclosed : Closed s) (hopen' : s'.handle.isSome = true)
    (hstep : serverStep c s (.recv d a) = some s') : Owned d s' := by
  have hnone : ∀ {t : State σ η}, Held t s' → t.handle = none → Owned d s' := by
    intro t hh hnone
    rw [hh.handle, hnone] at hopen'
    exact absurd hopen' Bool.false_ne_true
  cases between hclosed hstep with
  | idle hh => exact hnone hh hclosed.handle
  | refused _ _ hh => exact hnone hh hclosed.handle
  | notFound _ _ hnull hh => exact hnone hh hnull
  | upload _ _ _ hh => exact ⟨hh.addr, hh.port⟩
  | download _ _ _ _ hh => exact ⟨hh.addr, hh.port⟩
  | unsent _ _ _ hh => exact ⟨hh.addr, hh.port⟩
  | readFailed _ _ _ _ hg =>
    rw [hg.handle] at hopen'
    exact absurd hopen' Bool.false_ne_true

/-- What is done for the peer. -/
def served (c : Context σ η κ) (d : Datagram) (s : State σ η) (e : Event κ) : List (Action η) :=
  if fromPeer d e then actions c s e else []

theorem isolated_run {es : List (Event κ)} (howned : Owned d s)
    (hstays : StepsMeet (serverStep c) InSession s es)
    (hrun : runFrom (serverStep c) s es = some s') :
    runFrom (serverStep c) s (es.filter (fromPeer d)) = some s' ∧
      history (serverStep c) (actions c) s (es.filter (fromPeer d)) =
        history (serverStep c) (served c d) s es := by
  induction es generalizing s with
  | nil => exact ⟨hrun, rfl⟩
  | cons e es ih =>
    obtain ⟨t, hstep, hrest⟩ := runFrom_cons_iff.mp hrun
    cases hpeer : fromPeer d e with
    | false =>
      -- a stranger, who leaves no trace
      cases e with
      | tick a => cases hpeer
      | recv d' a =>
        have hsame : t = s := by
          rw [serverStep_recv.mp hstep, recv_fst, if_pos ((howned.stranger_iff d' a).mpr hpeer)]
        have hserved : served c d s (.recv d' a) = [] := by
          rw [served, hpeer]
          rfl
        rw [List.filter_cons_of_neg (by rw [hpeer]; exact Bool.false_ne_true),
          history_cons hstep, hserved, List.nil_append]
        rw [hsame] at hrest ⊢
        exact ih howned (hsame ▸ hstays.2 t hstep) hrest
    | true =>
      have hserved : served c d s e = actions c s e := if_pos hpeer
      rw [List.filter_cons_of_pos hpeer, history_cons hstep, history_cons hstep, hserved]
      cases es with
      | nil => exact ⟨runFrom_cons_iff.mpr ⟨t, hstep, hrest⟩, rfl⟩
      | cons e' es' =>
        have howned' := owned_step howned hstays.1 (hstays.2 t hstep).1 hstep
        obtain ⟨hrun', hhistory⟩ := ih howned' (hstays.2 t hstep) hrest
        exact ⟨runFrom_cons_iff.mpr ⟨t, hstep, hrun'⟩, congrArg _ hhistory⟩

/-- Whom the check keeps out. -/
theorem fromPeer_iff (d : Datagram) (a : Answers κ) :
    (∀ d' : Datagram, fromPeer d (.recv d' a) = true ↔ d'.peer = d.peer) ↔
      d.port ≠ 0 ∧ d.addr ≠ 0 := by
  have hiff : ∀ d' : Datagram, fromPeer d (.recv d' a) = true ↔
      (d.port = 0 ∨ d'.port = d.port) ∧ (d.addr = 0 ∨ d.addr = d'.addr) := by
    intro d'
    simp only [fromPeer, Bool.and_eq_true, Bool.or_eq_true, beq_iff_eq]
  have hpeer : ∀ d' : Datagram, d'.peer = d.peer ↔ d'.addr = d.addr ∧ d'.port = d.port := by
    intro d'
    rw [Datagram.peer, Datagram.peer, Peer.mk.injEq]
  have hother : ∀ {n : Nat} (x : BitVec (n + 1)), ∃ y, y ≠ x := by
    intro n x
    exact ⟨x + 1, by simp⟩
  constructor
  · intro hall
    constructor
    · intro hport
      obtain ⟨port, hne⟩ := hother d.port
      have h := (hall { d with port := port }).mp ((hiff _).mpr ⟨Or.inl hport, Or.inr rfl⟩)
      exact hne ((hpeer _).mp h).2
    · intro haddr
      obtain ⟨addr, hne⟩ := hother d.addr
      have h := (hall { d with addr := addr }).mp ((hiff _).mpr ⟨Or.inr rfl, Or.inl haddr⟩)
      exact hne ((hpeer _).mp h).1
  · intro hne d'
    rw [hiff, hpeer]
    constructor
    · intro hfrom
      exact ⟨(hfrom.2.resolve_left hne.2).symm, hfrom.1.resolve_left hne.1⟩
    · intro hsame
      exact ⟨Or.inr hsame.2, Or.inr hsame.1.symm⟩

/-- **A session depends on its peer alone.** From the request on, as long as the session is open,
the server does for the peer what it does without the datagrams of the others. These are the
datagrams with another address or port, unless one of the peer's own is zero. -/
theorem session_isolated {files : σ} {es es' : List (Event κ)}
    {s t u : State σ η} (hrun : runFrom (serverStep c) (tftpInit η files) es = some s)
    (hclosed : s.handle = none) (hstep : serverStep c s (.recv d a) = some t)
    (hopen : t.handle.isSome = true) (hstays : StepsMeet (serverStep c) InSession t es')
    (hrun' : runFrom (serverStep c) t es' = some u) :
    runFrom (serverStep c) t (es'.filter (fromPeer d)) = some u ∧
      history (serverStep c) (actions c) t (es'.filter (fromPeer d)) =
        history (serverStep c) (served c d) t es' ∧
      ((∀ d' : Datagram, fromPeer d (.recv d' a) = true ↔ d'.peer = d.peer) ↔
        d.port ≠ 0 ∧ d.addr ≠ 0) := by
  have hphase := closed_of_run hrun hclosed
  obtain ⟨hsame, hhistory⟩ := isolated_run (owned_of_opened hphase hopen hstep) hstays hrun'
  exact ⟨hsame, hhistory, fromPeer_iff d a⟩

end

/-- A request from another host. -/
def intruder : Datagram := { requestFor false with addr := 0xC0A80103 }

/-- It might as well not have come. -/
theorem session_isolated_intruder : ∃ u,
    runFrom (serverStep ctxt) (sessionFor true [])
      [.tick allWell, .recv intruder allWell] = some u ∧
    runFrom (serverStep ctxt) (sessionFor true [])
      ([.tick allWell, .recv intruder allWell].filter (fromPeer (requestFor true))) = some u := by
  have hstays : StepsMeet (serverStep ctxt) InSession (sessionFor true [])
      [.tick allWell, .recv intruder allWell] :=
    StepsMeet.cons rfl rfl ⟨rfl, fun _ _ => trivial⟩
  have hrun : runFrom (serverStep ctxt) (tftpInit Unit (cardWith [])) [] =
      some (tftpInit Unit (cardWith [])) := rfl
  exact ⟨_, rfl, (session_isolated (d := requestFor true) (a := allWell) hrun rfl rfl (by decide)
    hstays rfl).1⟩

end Acmi.Tftp
