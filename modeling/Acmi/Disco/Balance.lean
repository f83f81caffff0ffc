import Acmi.Disco.Recv

/-!
# What discovery does with its pbufs

The callback owns the datagram it is called with and must free it. `Balanced` is what one call has
to leave behind; `step_cases` says what it does leave behind, and `balanced_iff_nil` follows for
whole runs: the pbuf for the reply and the reference to the prepared one are given back on every
path, the datagram on none.
-/

namespace Acmi.Disco

open Acmi.Lib Acmi.Psc

/-- The pbuf for the reply is gone, and nobody but `disco_reply_buf` refers to the prepared one. -/
structure ReplyReleased (d : Datagram) (t : State) : Prop where
  temporary : ∀ q ∈ d.alloc, t.pool.cells q = none
  reply : (t.pool.cells t.replyBuf).map Pbuf.ref = some 1

/-- The datagram is gone as well, and as many pbufs are in use as before it arrived. -/
structure Balanced (s : State) (d : Datagram) (t : State) : Prop extends ReplyReleased d t where
  received : ∀ a ∈ d.links.map Prod.fst, t.pool.cells a = none
  inUse : t.pool.inUse = s.pool.inUse

/-! ## One datagram -/

theorem prepared_discoverPrep {m : Pool} {r : Nat} (hr : m.Free r) (gitHash : BitVec 32) :
    Prepared (discoverPrep m r gitHash) gitHash :=
  ⟨hr.1, Pool.set_self ..⟩

variable {s t : State} {d : Datagram} {gitHash : BitVec 32}

/-- The prepared reply is not in the datagram. -/
theorem Prepared.notMem (h : Prepared s gitHash) (hroom : s.pool.Room d.links) :
    s.replyBuf ∉ d.links.map Prod.fst := by
  intro hmem
  have hnone := (hroom.2 _ hmem).2
  rw [h.cell] at hnone
  cases hnone

theorem Prepared.arrived (h : Prepared s gitHash) (hroom : s.pool.Room d.links) :
    Prepared (s.arrived d) gitHash :=
  ⟨(Pool.deliver_size s.pool d.links).symm ▸ h.lt,
    (Pool.deliver_of_notMem s.pool (h.notMem hroom)).trans h.cell⟩

/-- **What a datagram does.** The pool keeps it, whatever was sent. -/
theorem step_cases (h : Prepared s gitHash) (hs : step s d = some t) :
    s.pool.Room d.links ∧ (∀ q ∈ d.alloc, (s.arrived d).pool.Free q) ∧
      ∃ sent, t = { s.arrived d with sent := s.sent ++ sent } ∧
        (sent = [(discoReply gitHash, d.sendto)] ∧ Accepted d.bytes ∧ d.alloc ≠ none ∨
          sent = [] ∧ (¬ Accepted d.bytes ∨ d.alloc = none)) := by
  unfold step at hs
  split at hs
  next hroom =>
    obtain ⟨hroom, halloc⟩ := hroom
    rw [Option.some.injEq] at hs
    have hbytes : (s.arrived d).pool.bytes d.first.1 = d.bytes := Pool.bytes_deliver hroom
    obtain ⟨sent, hrecv, hsent⟩ :=
      discoRecv_eq (h.arrived hroom) d.first.1 d.stack halloc d.sendto
    rw [hbytes] at hsent
    exact ⟨hroom, halloc, sent, hs.symm.trans hrecv, hsent⟩
  next => cases hs

theorem Prepared.step (h : Prepared s gitHash) (hs : step s d = some t) : Prepared t gitHash := by
  obtain ⟨hroom, -, sent, rfl, -⟩ := step_cases h hs
  exact ⟨(h.arrived hroom).lt, (h.arrived hroom).cell⟩

theorem inUse_step (h : Prepared s gitHash) (hs : step s d = some t) :
    t.pool.inUse = s.pool.inUse + d.links.length := by
  obtain ⟨hroom, -, sent, rfl, -⟩ := step_cases h hs
  exact Pool.inUse_deliver hroom

/-- Every path gives the reply back. -/
theorem replyReleased_step (h : Prepared s gitHash) (hs : step s d = some t) :
    ReplyReleased d t := by
  have hcell := (h.step hs).cell
  obtain ⟨-, halloc, sent, rfl, -⟩ := step_cases h hs
  exact ⟨fun q hq => (halloc q hq).2, congrArg (Option.map Pbuf.ref) hcell⟩

/-- No path gives the datagram back. -/
theorem not_balanced_step (h : Prepared s gitHash) (hs : step s d = some t) :
    ¬ Balanced s d t := by
  intro hbalanced
  have hmore := inUse_step h hs
  rw [hbalanced.inUse, Datagram.links, List.length_cons] at hmore
  omega

/-- The pbufs of a datagram that came earlier stay. -/
theorem received_step (h : Prepared s gitHash) (hs : step s d = some t) {a : Nat}
    (ha : (s.pool.cells a).map Pbuf.ref = some 1 ∨ a ∈ d.links.map Prod.fst) :
    (t.pool.cells a).map Pbuf.ref = some 1 := by
  obtain ⟨hroom, -, sent, rfl, -⟩ := step_cases h hs
  show (((s.pool.deliver d.links).cells a).map Pbuf.ref) = some 1
  by_cases hmem : a ∈ d.links.map Prod.fst
  · obtain ⟨c, hc, href⟩ := Pool.deliver_ref (m := s.pool) hmem
    rw [hc, Option.map_some, href]
  · rw [Pool.deliver_of_notMem s.pool hmem]
    exact ha.resolve_right hmem

/-! ## Runs -/

theorem inUse_run {ds : List Datagram} (h : Prepared s gitHash)
    (hrun : runFrom step s ds = some t) :
    t.pool.inUse = s.pool.inUse + (ds.flatMap Datagram.links).length := by
  induction ds generalizing s with
  | nil =>
    rw [runFrom_nil, Option.some.injEq] at hrun
    rw [hrun]
    rfl
  | cons d ds ih =>
    obtain ⟨u, hs, hrest⟩ := runFrom_cons_iff.mp hrun
    rw [ih (h.step hs) hrest, inUse_step h hs, List.flatMap_cons, List.length_append, Nat.add_assoc]

theorem replyReleased_run (ds : List Datagram) (h : Prepared s gitHash) :
    StepsMeet step (fun s d => ∀ t, step s d = some t → ReplyReleased d t) s ds :=
  .of_invariant (I := fun s => Prepared s gitHash) (fun _ _ _ h hs => h.step hs)
    (fun _ _ h _ hs => replyReleased_step h hs) ds s h

theorem received_run {ds : List Datagram} (h : Prepared s gitHash)
    (hrun : runFrom step s ds = some t) {a : Nat}
    (ha : (s.pool.cells a).map Pbuf.ref = some 1 ∨ ∃ d ∈ ds, a ∈ d.links.map Prod.fst) :
    (t.pool.cells a).map Pbuf.ref = some 1 := by
  induction ds generalizing s with
  | nil =>
    rw [runFrom_nil, Option.some.injEq] at hrun
    subst hrun
    rcases ha with ha | ⟨d, hd, -⟩
    · exact ha
    · cases hd
  | cons d ds ih =>
    obtain ⟨u, hs, hrest⟩ := runFrom_cons_iff.mp hrun
    apply ih (h.step hs) hrest
    rcases ha with ha | ⟨e, he, ha⟩
    · exact .inl (received_step h hs (.inl ha))
    · rcases List.mem_cons.mp he with rfl | he
      · exact .inl (received_step h hs (.inr ha))
      · exact .inr ⟨e, he, ha⟩

/-- **No datagram is ever freed.** The reply is released on every path and `disco_reply_buf` has
its one reference, but each pbuf of each datagram is still there: the calls of a run are balanced
only if there are none. -/
theorem balanced_iff_nil {m : Pool} {r : Nat} (hr : m.Free r) (gitHash : BitVec 32)
    {ds : List Datagram} {t : State}
    (hrun : runFrom step (discoverPrep m r gitHash) ds = some t) :
    (StepsMeet step (fun s d => ∀ t, step s d = some t → Balanced s d t) (discoverPrep m r gitHash)
        ds ↔ ds = []) ∧
      StepsMeet step (fun s d => ∀ t, step s d = some t → ReplyReleased d t)
        (discoverPrep m r gitHash) ds ∧
      (∀ d ∈ ds, ∀ a ∈ d.links.map Prod.fst, (t.pool.cells a).map Pbuf.ref = some 1) ∧
      t.pool.inUse =
        (discoverPrep m r gitHash).pool.inUse + (ds.flatMap Datagram.links).length := by
  have h := prepared_discoverPrep hr gitHash
  refine ⟨?_, replyReleased_run ds h, fun d hd a ha => received_run h hrun (.inr ⟨d, hd, ha⟩),
    inUse_run h hrun⟩
  constructor
  · intro hmeets
    cases ds with
    | nil => rfl
    | cons d ds =>
      obtain ⟨u, hs, -⟩ := runFrom_cons_iff.mp hrun
      exact absurd (hmeets.1 u hs) (not_balanced_step h hs)
  · rintro rfl
    exact trivial

/-- Eight pbufs, of which the reply takes the first. -/
def prepared8 : State := discoverPrep ⟨8, fun _ => none⟩ 0 0

/-- A request in one pbuf that is answered. -/
def request8 : Datagram :=
  ⟨(1, [0x50, 0x53, 0x04, 0xD2, 0, 0, 0, 0]), [], fun _ => 0, some 2, true⟩

/-- It is answered, and its pbuf is still in use. -/
theorem request_kept : prepared8.pool.inUse = 1 ∧
    (runFrom step prepared8 [request8]).map (fun t => t.pool.inUse) = some 2 ∧
    (runFrom step prepared8 [request8]).map (fun t => (t.pool.cells 1).map Pbuf.ref) =
      some (some 1) ∧
    (runFrom step prepared8 [request8]).map State.sent = some [(discoReply 0, true)] := by
  decide

theorem balanced_iff_nil_request : ∃ t, runFrom step prepared8 [request8] = some t ∧
    ¬ StepsMeet step (fun s d => ∀ t, step s d = some t → Balanced s d t) prepared8 [request8] ∧
    t.pool.inUse = prepared8.pool.inUse + 1 := by
  have hrun : runFrom step prepared8 [request8] = some (discoRecv (prepared8.arrived request8) 1
      (fun _ => 0) (some 2) true) := rfl
  have hfree : Pool.Free ⟨8, fun _ => none⟩ 0 := by decide
  obtain ⟨hiff, -, -, hinUse⟩ := balanced_iff_nil hfree 0 hrun
  refine ⟨_, hrun, ?_, hinUse⟩
  intro hmeets
  cases hiff.mp hmeets

end Acmi.Disco
