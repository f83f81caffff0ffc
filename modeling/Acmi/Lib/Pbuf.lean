import Acmi.Lib.Bytes
import Mathlib.Data.List.Perm.Subperm
import Mathlib.Logic.Function.Basic

/-!
# Reference-counted chains of buffers

The packet buffers of a network stack. A pool has cells, and a cell that is in use has a piece of
data, the next cell of its chain and the number of references to it. Putting one chain behind
another makes a reference to the second (`chain`); giving up a reference frees the cells of the
chain up to one that somebody else refers to (`free`).

A chain that does not run in a circle has at most as many cells as the pool, so that many steps
are enough to walk along it.
-/

namespace Acmi.Lib

structure Pbuf where
  payload : List Byte
  next : Option Nat
  ref : Nat
  deriving DecidableEq

@[ext] structure Pool where
  size : Nat
  cells : Nat → Option Pbuf

namespace Pool

def set (m : Pool) (a : Nat) (c : Option Pbuf) : Pool :=
  { m with cells := Function.update m.cells a c }

theorem set_self (m : Pool) (a : Nat) (c : Option Pbuf) : (m.set a c).cells a = c :=
  Function.update_self ..

theorem set_of_ne (m : Pool) {a b : Nat} (h : b ≠ a) (c : Option Pbuf) :
    (m.set a c).cells b = m.cells b :=
  Function.update_of_ne h ..

/-- The number of cells in use. -/
def inUse (m : Pool) : Nat := (List.range m.size).countP fun a => (m.cells a).isSome

/-- `a` can be handed out. -/
def Free (m : Pool) (a : Nat) : Prop := a < m.size ∧ m.cells a = none

instance (m : Pool) (a : Nat) : Decidable (m.Free a) := inferInstanceAs (Decidable (_ ∧ _))

/-! ## Operations -/

/-- `pbuf_alloc`, when it hands out `a`. -/
def alloc (m : Pool) (a : Nat) (payload : List Byte) : Pool := m.set a (some ⟨payload, none, 1⟩)

/-- `pbuf_ref` -/
def addRef (m : Pool) (a : Nat) : Pool :=
  match m.cells a with
  | none => m
  | some c => m.set a (some { c with ref := c.ref + 1 })

/-- The last cell of the chain at `a`. -/
def last (m : Pool) : Nat → Nat → Nat
  | 0, a => a
  | n + 1, a =>
    match (m.cells a).bind Pbuf.next with
    | none => a
    | some b => last m n b

/-- `pbuf_cat` -/
def cat (m : Pool) (head tail : Nat) : Pool :=
  let a := m.last m.size head
  match m.cells a with
  | none => m
  | some c => m.set a (some { c with next := some tail })

/-- `pbuf_chain` -/
def chain (m : Pool) (head tail : Nat) : Pool := (m.cat head tail).addRef tail

/-- The loop of `pbuf_free`: it goes on as long as it gave up the last reference. -/
def freeFrom (m : Pool) : Nat → Option Nat → Pool
  | 0, _ => m
  | _ + 1, none => m
  | n + 1, some a =>
    match m.cells a with
    | none => m
    | some c =>
      if c.ref = 1 then freeFrom (m.set a none) n c.next
      else m.set a (some { c with ref := c.ref - 1 })

/-- `pbuf_free` -/
def free (m : Pool) (a : Nat) : Pool := m.freeFrom m.size (some a)

def bytesFrom (m : Pool) : Nat → Option Nat → List Byte
  | 0, _ => []
  | _ + 1, none => []
  | n + 1, some a =>
    match m.cells a with
    | none => []
    | some c => c.payload ++ bytesFrom m n c.next

/-- The data of the chain at `a`. -/
def bytes (m : Pool) (a : Nat) : List Byte := m.bytesFrom m.size (some a)

/-- `pbuf_copy_partial`, from offset 0 on. -/
def copyPartial (m : Pool) (a len : Nat) : List Byte := (m.bytes a).take len

/-! ## A new cell in front of a chain -/

section

variable {m : Pool} {a r : Nat} {c : Pbuf} (payload : List Byte)

theorem Free.ne (ha : m.Free a) (hr : m.cells r = some c) : a ≠ r := by
  rintro rfl
  rw [ha.2] at hr
  cases hr

theorem chain_alloc (ha : m.Free a) (hr : m.cells r = some c) :
    (m.alloc a payload).chain a r =
      (m.set a (some ⟨payload, some r, 1⟩)).set r (some { c with ref := c.ref + 1 }) := by
  have hself : (m.alloc a payload).cells a = some ⟨payload, none, 1⟩ := set_self ..
  have hlast : ∀ n, (m.alloc a payload).last n a = a := by
    intro n
    cases n with
    | zero => rfl
    | succ n =>
      rw [last, hself]
      rfl
  have hcat : (m.alloc a payload).cat a r = m.set a (some ⟨payload, some r, 1⟩) := by
    unfold cat
    simp only [hlast, hself]
    exact congrArg (Pool.mk m.size) (Function.update_idem ..)
  have htail : (m.set a (some ⟨payload, some r, 1⟩)).cells r = some c :=
    (set_of_ne m (ha.ne hr).symm _).trans hr
  rw [chain, hcat, addRef, htail]

theorem chain_alloc_head (ha : m.Free a) (hr : m.cells r = some c) :
    ((m.alloc a payload).chain a r).cells a = some ⟨payload, some r, 1⟩ := by
  rw [chain_alloc payload ha hr, set_of_ne _ (ha.ne hr), set_self]

theorem chain_alloc_tail (ha : m.Free a) (hr : m.cells r = some c) :
    ((m.alloc a payload).chain a r).cells r = some { c with ref := c.ref + 1 } := by
  rw [chain_alloc payload ha hr, set_self]

/-- Both cells are in the pool, so it is not too small to walk along them. -/
theorem chain_alloc_size (ha : m.Free a) (hr : m.cells r = some c) (hlt : r < m.size) :
    ∃ n, ((m.alloc a payload).chain a r).size = n + 2 := by
  have hne := ha.ne hr
  have hlt' := ha.1
  rw [chain_alloc payload ha hr]
  exact ⟨m.size - 2, by show m.size = _; omega⟩

/-- The data of the new cell, and then that of the chain. -/
theorem bytes_chain_alloc (ha : m.Free a) (hr : m.cells r = some c) (hlt : r < m.size)
    (hnext : c.next = none) : ((m.alloc a payload).chain a r).bytes a = payload ++ c.payload := by
  have hhead := chain_alloc_head payload ha hr
  have htail := chain_alloc_tail payload ha hr
  obtain ⟨n, hn⟩ := chain_alloc_size payload ha hr hlt
  generalize (m.alloc a payload).chain a r = m' at hhead htail hn
  have hend : m'.bytesFrom n none = [] := by
    cases n <;> rfl
  rw [bytes, hn, bytesFrom, hhead]
  show payload ++ m'.bytesFrom (n + 1) (some r) = _
  rw [bytesFrom, htail]
  show payload ++ (c.payload ++ m'.bytesFrom n c.next) = _
  rw [hnext, hend, List.append_nil]

/-- **Freeing the new cell puts everything back.** -/
theorem free_chain_alloc (ha : m.Free a) (hr : m.cells r = some c) (hlt : r < m.size)
    (href : 0 < c.ref) : ((m.alloc a payload).chain a r).free a = m := by
  have hne := ha.ne hr
  have hhead := chain_alloc_head payload ha hr
  have htail := chain_alloc_tail payload ha hr
  obtain ⟨n, hn⟩ := chain_alloc_size payload ha hr hlt
  have hfree : ((m.alloc a payload).chain a r).free a =
      (((m.alloc a payload).chain a r).set a none).set r (some c) := by
    -- the new cell goes, and the chain behind it has somebody else's reference
    have htail' := (set_of_ne ((m.alloc a payload).chain a r) hne.symm none).trans htail
    have hmore : ¬ c.ref + 1 = 1 := by omega
    rw [free, hn, freeFrom, hhead]
    show freeFrom _ (n + 1) (some r) = _
    rw [freeFrom, htail']
    show (if c.ref + 1 = 1 then _ else _) = _
    rw [if_neg hmore]
    rfl
  rw [hfree, chain_alloc payload ha hr]
  refine Pool.ext rfl ?_
  funext b
  by_cases hbr : b = r
  · rw [hbr, set_self, hr]
  · by_cases hba : b = a
    · rw [hba, set_of_ne _ hne, set_self, ha.2]
    · rw [set_of_ne _ hbr, set_of_ne _ hba, set_of_ne _ hbr, set_of_ne _ hba]

end

/-! ## A chain that comes in -/

/-- The cells of a chain, with their data: each has one reference. -/
def deliver (m : Pool) : List (Nat × List Byte) → Pool
  | [] => m
  | (a, payload) :: links =>
    (m.deliver links).set a (some ⟨payload, links.head?.map Prod.fst, 1⟩)

/-- The pool has room for the chain. -/
def Room (m : Pool) (links : List (Nat × List Byte)) : Prop :=
  (links.map Prod.fst).Nodup ∧ ∀ a ∈ links.map Prod.fst, m.Free a

instance (m : Pool) (links : List (Nat × List Byte)) : Decidable (m.Room links) :=
  inferInstanceAs (Decidable (_ ∧ _))

theorem deliver_size (m : Pool) (links : List (Nat × List Byte)) :
    (m.deliver links).size = m.size := by
  induction links with
  | nil => rfl
  | cons link links ih => exact ih

/-- The cells that are not of the chain stay as they are. -/
theorem deliver_of_notMem (m : Pool) {links : List (Nat × List Byte)} {b : Nat}
    (hb : b ∉ links.map Prod.fst) : (m.deliver links).cells b = m.cells b := by
  induction links with
  | nil => rfl
  | cons link links ih =>
    rw [List.map_cons, List.mem_cons, not_or] at hb
    rw [deliver, set_of_ne _ hb.1, ih hb.2]

theorem deliver_ref {m : Pool} {links : List (Nat × List Byte)} {b : Nat}
    (hb : b ∈ links.map Prod.fst) : ∃ c, (m.deliver links).cells b = some c ∧ c.ref = 1 := by
  induction links with
  | nil => cases hb
  | cons link links ih =>
    by_cases hlink : b = link.1
    · exact ⟨_, by rw [hlink, deliver, set_self], rfl⟩
    · rw [List.map_cons, List.mem_cons] at hb
      rw [deliver, set_of_ne _ hlink]
      exact ih (hb.resolve_left hlink)

theorem countP_set {f g : Nat → Bool} {a : Nat} (hf : f a = false) (hg : g a = true)
    (hfg : ∀ b, b ≠ a → g b = f b) (n : Nat) (ha : a < n) :
    (List.range n).countP g = (List.range n).countP f + 1 := by
  have hbelow : ∀ k ≤ a, (List.range k).countP g = (List.range k).countP f := by
    intro k hk
    apply List.countP_congr
    intro b hb
    rw [List.mem_range] at hb
    rw [hfg b (by omega)]
  induction n with
  | zero => cases ha
  | succ n ih =>
    rw [List.range_succ, List.countP_append, List.countP_append]
    rcases Nat.lt_or_ge a n with hlt | hge
    · have hn : [n].countP g = [n].countP f := by
        rw [List.countP_singleton, List.countP_singleton, hfg n (by omega)]
      rw [ih hlt, hn]
      omega
    · have hn : n = a := by omega
      rw [hbelow n (by omega), hn, List.countP_singleton, List.countP_singleton, hf, hg]
      rfl

theorem inUse_set {m : Pool} {a : Nat} (ha : m.Free a) (c : Pbuf) :
    (m.set a (some c)).inUse = m.inUse + 1 := by
  apply countP_set (a := a)
  · rw [ha.2]
    rfl
  · rw [set_self]
    rfl
  · intro b hb
    rw [set_of_ne m hb]
  · exact ha.1

/-- **A chain takes as many cells as it has.** -/
theorem inUse_deliver {m : Pool} {links : List (Nat × List Byte)} (h : m.Room links) :
    (m.deliver links).inUse = m.inUse + links.length := by
  induction links with
  | nil => rfl
  | cons link links ih =>
    obtain ⟨hnodup, hfree⟩ := h
    rw [List.map_cons, List.nodup_cons] at hnodup
    have hrest : m.Room links := ⟨hnodup.2, fun a ha => hfree a (List.mem_cons_of_mem _ ha)⟩
    have hlink : (m.deliver links).Free link.1 := by
      obtain ⟨hlt, hnone⟩ := hfree link.1 List.mem_cons_self
      exact ⟨deliver_size m links ▸ hlt, (deliver_of_notMem m hnodup.1).trans hnone⟩
    rw [deliver, inUse_set hlink, ih hrest, List.length_cons]
    omega

/-- The cells of the chain are all that counts for its data. -/
theorem bytesFrom_of_cells {m m' : Pool} {links : List (Nat × List Byte)}
    (hnodup : (links.map Prod.fst).Nodup)
    (hcells : ∀ b ∈ links.map Prod.fst, m'.cells b = (m.deliver links).cells b) :
    ∀ n, links.length ≤ n →
      m'.bytesFrom n (links.head?.map Prod.fst) = (links.map Prod.snd).flatten := by
  induction links with
  | nil =>
    intro n _
    cases n <;> rfl
  | cons link links ih =>
    intro n hn
    rw [List.map_cons, List.nodup_cons] at hnodup
    cases n with
    | zero => cases hn
    | succ n =>
      have hhead : m'.cells link.1 = some ⟨link.2, links.head?.map Prod.fst, 1⟩ := by
        rw [hcells link.1 List.mem_cons_self, deliver, set_self]
      have hrest : ∀ b ∈ links.map Prod.fst, m'.cells b = (m.deliver links).cells b := by
        intro b hb
        have hne : b ≠ link.1 := fun h => hnodup.1 (h ▸ hb)
        rw [hcells b (List.mem_cons_of_mem _ hb), deliver, set_of_ne _ hne]
      show m'.bytesFrom (n + 1) (some link.1) = _
      rw [bytesFrom, hhead]
      show link.2 ++ m'.bytesFrom n (links.head?.map Prod.fst) = _
      rw [ih hnodup.2 hrest n (Nat.le_of_succ_le_succ hn)]
      rfl

/-- **The data of a chain that came in.** -/
theorem bytes_deliver {m : Pool} {link : Nat × List Byte} {links : List (Nat × List Byte)}
    (h : m.Room (link :: links)) :
    (m.deliver (link :: links)).bytes link.1 = ((link :: links).map Prod.snd).flatten := by
  obtain ⟨hnodup, hfree⟩ := h
  refine bytesFrom_of_cells hnodup (fun _ _ => rfl) _ ?_
  -- the addresses are distinct and below the size of the pool
  have hsub : (link :: links).map Prod.fst ⊆ List.range m.size :=
    fun a ha => List.mem_range.mpr (hfree a ha).1
  have hle := (List.subperm_of_subset hnodup hsub).length_le
  rwa [List.length_map, List.length_range, ← deliver_size m (link :: links)] at hle

end Pool

end Acmi.Lib
