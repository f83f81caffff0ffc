import Acmi.Sdcard.Lines
import Mathlib.Data.List.Forall2

/-!
# The hardware address in NET.CNF

The format is six pairs of hexadecimal digits with a colon between one and the next (`IsHwaddr`).
The loop of the `hwaddr` branch accepts it and nothing else: `parseHwaddr_succ_iff` is one pass,
`parseHwaddr_from_iff` the passes from a part on. `net_setup` prints addresses in this format.
-/

namespace Acmi.Sdcard

open Acmi.Lib

/-! ## The format -/

/-- The value of a hexadecimal digit, in either case. -/
def hexValue (c : Byte) : Option Nat :=
  ((ascii "0123456789ABCDEF").idxOf? c).or ((ascii "0123456789abcdef").idxOf? c)

/-- Two digits, and the byte they stand for. -/
def HexPair (p : List Byte) (b : Byte) : Prop :=
  ∃ c d x y, p = [c, d] ∧ hexValue c = some x ∧ hexValue d = some y ∧
    b = BitVec.ofNat 8 (16 * x + y)

/-- Six pairs with colons between them, and nothing else. -/
def IsHwaddr (s : List Byte) (hwaddr : Vector Byte 6) : Prop :=
  ∃ pairs, s = [0x3a].intercalate pairs ∧ List.Forall₂ HexPair pairs hwaddr.toList

/-- `%02X` -/
def format02X (b : Byte) : List Byte :=
  [(ascii "0123456789ABCDEF").getD (b.toNat / 16) 0,
    (ascii "0123456789ABCDEF").getD (b.toNat % 16) 0]

/-- The address as `net_setup` prints it: `%02X:%02X:%02X:%02X:%02X:%02X`. -/
def printedHwaddr (hwaddr : Vector Byte 6) : List Byte :=
  [0x3a].intercalate (hwaddr.toList.map format02X)

theorem upperDigits : ascii "0123456789ABCDEF" =
    [0x30, 0x31, 0x32, 0x33, 0x34, 0x35, 0x36, 0x37, 0x38, 0x39, 0x41, 0x42, 0x43, 0x44, 0x45,
      0x46] := by
  simp [ascii]

theorem lowerDigits : ascii "0123456789abcdef" =
    [0x30, 0x31, 0x32, 0x33, 0x34, 0x35, 0x36, 0x37, 0x38, 0x39, 0x61, 0x62, 0x63, 0x64, 0x65,
      0x66] := by
  simp [ascii]

theorem hexValue_digit : ∀ x < 16, hexValue ((ascii "0123456789ABCDEF").getD x 0) = some x := by
  simp only [hexValue, upperDigits, lowerDigits]
  decide

theorem hexPair_format02X (b : Byte) : HexPair (format02X b) b := by
  have hlt := b.isLt
  refine ⟨_, _, _, _, rfl, hexValue_digit (b.toNat / 16) (by omega),
    hexValue_digit (b.toNat % 16) (by omega), ?_⟩
  rw [Nat.div_add_mod, BitVec.ofNat_toNat, BitVec.setWidth_eq]

theorem isHwaddr_printedHwaddr (hwaddr : Vector Byte 6) :
    IsHwaddr (printedHwaddr hwaddr) hwaddr := by
  refine ⟨_, rfl, ?_⟩
  rw [List.forall₂_map_left_iff, List.forall₂_same]
  exact fun b _ => hexPair_format02X b

theorem intercalate_cons_cons {α : Type} (sep p q : List α) (pairs : List (List α)) :
    sep.intercalate (p :: q :: pairs) = p ++ (sep ++ sep.intercalate (q :: pairs)) := by
  simp [List.intercalate]

theorem intercalate_singleton {α : Type} (sep p : List α) : sep.intercalate [p] = p := by
  simp [List.intercalate]

/-! ## The loop -/

/-- The bytes of a range, counted from its first one. -/
theorem exists_of_range {c lo hi : Byte} (h : lo ≤ c ∧ c ≤ hi) :
    ∃ x ≤ hi.toNat - lo.toNat, c = lo + BitVec.ofNat 8 x := by
  refine ⟨c.toNat - lo.toNat, ?_, ?_⟩
  · bv_omega
  · bv_omega

/-- The three ranges, each by its first byte and the offset of its last one, hold digits. -/
theorem parseHex_range : ∀ r ∈ [((0x30 : Byte), 9), (0x41, 5), (0x61, 5)], ∀ x ≤ r.2,
    parseHex (r.1 + BitVec.ofNat 8 x) 0 =
      (hexValue (r.1 + BitVec.ofNat 8 x)).map (BitVec.ofNat 8) := by
  simp only [hexValue, upperDigits, lowerDigits]
  decide

/-- There are no other digits. -/
theorem digit_range : ∀ c ∈ ascii "0123456789ABCDEF" ++ ascii "0123456789abcdef",
    0x30 ≤ c ∧ c ≤ 0x39 ∨ 0x41 ≤ c ∧ c ≤ 0x46 ∨ 0x61 ≤ c ∧ c ≤ 0x66 := by
  rw [upperDigits, lowerDigits]
  simp

theorem parseHex_zero (c : Byte) : parseHex c 0 = (hexValue c).map (BitVec.ofNat 8) := by
  by_cases hdigit : 0x30 ≤ c ∧ c ≤ 0x39
  · obtain ⟨x, hx, rfl⟩ := exists_of_range hdigit
    exact parseHex_range (0x30, 9) (by simp) x hx
  by_cases hupper : 0x41 ≤ c ∧ c ≤ 0x46
  · obtain ⟨x, hx, rfl⟩ := exists_of_range hupper
    exact parseHex_range (0x41, 5) (by simp) x hx
  by_cases hlower : 0x61 ≤ c ∧ c ≤ 0x66
  · obtain ⟨x, hx, rfl⟩ := exists_of_range hlower
    exact parseHex_range (0x61, 5) (by simp) x hx
  · have hnot : c ∉ ascii "0123456789ABCDEF" ++ ascii "0123456789abcdef" := by
      intro hmem
      rcases digit_range c hmem with h | h | h
      · exact hdigit h
      · exact hupper h
      · exact hlower h
    rw [List.mem_append, not_or] at hnot
    rw [parseHex, if_neg hdigit, if_neg hupper, if_neg hlower, hexValue,
      List.idxOf?_eq_none_iff.mpr hnot.1, List.idxOf?_eq_none_iff.mpr hnot.2]
    rfl

theorem parseHex_eq (c out : Byte) :
    parseHex c out = (hexValue c).map fun x => out ||| BitVec.ofNat 8 x := by
  have hor : parseHex c out = (parseHex c 0).map (out ||| ·) := by
    unfold parseHex
    split_ifs <;> simp
  rw [hor, parseHex_zero, Option.map_map]
  rfl

theorem hexValue_lt : ∀ c : Byte, ∀ x ∈ hexValue c, x < 16 := by
  intro c x hx
  rcases Option.or_eq_some_iff.mp hx with h | ⟨_, h⟩
  · exact (List.idxOf?_eq_some_iff.mp h).1
  · exact (List.idxOf?_eq_some_iff.mp h).1

theorem pair_value : ∀ x < 16, ∀ y < 16,
    (BitVec.ofNat 8 x <<< 4) ||| BitVec.ofNat 8 y = BitVec.ofNat 8 (16 * x + y) := by
  decide

/-- Two digits in a row. -/
theorem parsePair_iff (c d b : Byte) :
    (∃ hi, parseHex c 0 = some hi ∧ parseHex d (hi <<< 4) = some b) ↔ HexPair [c, d] b := by
  simp only [parseHex_zero, Option.map_eq_some_iff]
  simp only [parseHex_eq, Option.map_eq_some_iff]
  constructor
  · rintro ⟨hi, ⟨x, hx, rfl⟩, y, hy, rfl⟩
    exact ⟨c, d, x, y, rfl, hx, hy, pair_value x (hexValue_lt c x hx) y (hexValue_lt d y hy)⟩
  · rintro ⟨c', d', x, y, hp, hx, hy, rfl⟩
    simp only [List.cons.injEq, and_true] at hp
    obtain ⟨rfl, rfl⟩ := hp
    exact ⟨_, ⟨x, hx, rfl⟩, y, hy, pair_value x (hexValue_lt c x hx) y (hexValue_lt d y hy)⟩

/-- **One pass of the loop.** -/
theorem parseHwaddr_succ_iff {arg : Nat → Byte} {left n : Nat} {hwaddr v : Vector Byte 6}
    (hzero : hwaddr.getD n 0 = 0) :
    parseHwaddr arg (left + 1) n hwaddr = some v ↔
      ∃ b, HexPair [arg (n * 3), arg (n * 3 + 1)] b ∧
        (n < 5 ∧ arg (n * 3 + 2) = 0x3a ∧
            parseHwaddr arg left (n + 1) (hwaddr.setIfInBounds n b) = some v ∨
          n = 5 ∧ arg (n * 3 + 2) = 0 ∧ v = hwaddr.setIfInBounds n b) := by
  rw [parseHwaddr, hzero]
  simp only [← parsePair_iff]
  simp only [Option.bind_eq_bind, Option.bind_eq_some_iff]
  constructor
  · rintro ⟨hi, hhi, byte, hbyte, hres⟩
    refine ⟨byte, ⟨hi, hhi, hbyte⟩, ?_⟩
    split_ifs at hres with hcolon hend
    · exact .inl ⟨hcolon.1, hcolon.2, hres⟩
    · exact .inr ⟨hend.1, hend.2, (Option.some.inj hres).symm⟩
  · rintro ⟨byte, ⟨hi, hhi, hbyte⟩, hres⟩
    refine ⟨hi, hhi, byte, hbyte, ?_⟩
    rcases hres with ⟨hlt, hcolon, hrest⟩ | ⟨h5, hend, rfl⟩
    · rw [if_pos ⟨hlt, hcolon⟩]
      exact hrest
    · rw [if_neg (by omega), if_pos ⟨h5, hend⟩]

theorem exists_of_hexPair {t : List Byte} {b : Byte} (h : HexPair [t.getD 0 0, t.getD 1 0] b) :
    ∃ c d rest, t = c :: d :: rest := by
  have hnul : hexValue 0 = none := by simp [hexValue, ascii]
  obtain ⟨c, d, x, y, hp, hx, hy, -⟩ := h
  simp only [List.cons.injEq, and_true] at hp
  obtain ⟨rfl, rfl⟩ := hp
  rcases t with _ | ⟨c, _ | ⟨d, rest⟩⟩
  · exact absurd (hnul.symm.trans hx) (by simp)
  · exact absurd (hnul.symm.trans hy) (by simp)
  · exact ⟨c, d, rest, rfl⟩

theorem toList_setIfInBounds_length {hwaddr : Vector Byte 6} {done : List Byte} {left : Nat}
    (h : hwaddr.toList = done ++ List.replicate (left + 1) 0) (b : Byte) :
    (hwaddr.setIfInBounds done.length b).toList = (done ++ [b]) ++ List.replicate left 0 := by
  rw [Vector.toList_setIfInBounds, h, List.replicate_succ]
  simp

/-- One pass, in terms of the text that is left; `done` is what it has found before. -/
theorem parseHwaddr_pass_iff {s : List Byte} (hs : ∀ c ∈ s, c ≠ 0) {left : Nat} {done : List Byte}
    {hwaddr v : Vector Byte 6} (h : hwaddr.toList = done ++ List.replicate (left + 1) 0) :
    parseHwaddr (fun i => s.getD i 0) (left + 1) done.length hwaddr = some v ↔
      ∃ c d b rest, s.drop (done.length * 3) = c :: d :: rest ∧ HexPair [c, d] b ∧
        ((∃ rest', left ≠ 0 ∧ rest = 0x3a :: rest' ∧
            parseHwaddr (fun i => s.getD i 0) left (done.length + 1)
              (hwaddr.setIfInBounds done.length b) = some v) ∨
          (left = 0 ∧ rest = [] ∧ v.toList = done ++ [b])) := by
  have hlen : done.length + left = 5 := by
    have hsix := congrArg List.length h
    simp only [Vector.length_toList, List.length_append, List.length_replicate] at hsix
    omega
  have hzero : hwaddr.getD done.length 0 = 0 := by
    show hwaddr.toArray.getD done.length 0 = 0
    rw [Array.getD_eq_getD_getElem?, ← Array.getElem?_toList]
    show hwaddr.toList[done.length]?.getD 0 = 0
    rw [h]
    simp
  have harg : ∀ k, s.getD (done.length * 3 + k) 0 = (s.drop (done.length * 3)).getD k 0 := by
    intro k
    rw [List.getD_eq_getElem?_getD, List.getD_eq_getElem?_getD, List.getElem?_drop]
  have hlast : ∀ b, left = 0 → (v = hwaddr.setIfInBounds done.length b ↔
      v.toList = done ++ [b]) := by
    rintro b rfl
    rw [← Vector.toList_inj, toList_setIfInBounds_length h, List.replicate_zero, List.append_nil]
  have harg0 := harg 0
  rw [Nat.add_zero] at harg0
  rw [parseHwaddr_succ_iff hzero, harg0, harg 1, harg 2]
  have hne : ∀ c ∈ s.drop (done.length * 3), c ≠ 0 := fun c hc => hs c (List.mem_of_mem_drop hc)
  generalize s.drop (done.length * 3) = t at hne
  constructor
  · rintro ⟨b, hpair, hsep⟩
    obtain ⟨c, d, rest, rfl⟩ := exists_of_hexPair hpair
    refine ⟨c, d, b, rest, rfl, hpair, ?_⟩
    cases rest with
    | nil =>
      rcases hsep with ⟨-, hcolon, -⟩ | ⟨h5, -, hv⟩
      · exact absurd hcolon (by simp)
      · exact .inr ⟨by omega, rfl, (hlast b (by omega)).mp hv⟩
    | cons e rest =>
      rcases hsep with ⟨hlt, hcolon, hrest⟩ | ⟨-, hend, -⟩
      · obtain rfl : e = 0x3a := hcolon
        exact .inl ⟨rest, by omega, rfl, hrest⟩
      · exact absurd hend (hne e (by simp))
  · rintro ⟨c, d, b, rest, rfl, hpair, ⟨rest', hleft, rfl, hrest⟩ | ⟨hleft, rfl, hv⟩⟩
    · exact ⟨b, hpair, .inl ⟨by omega, rfl, hrest⟩⟩
    · exact ⟨b, hpair, .inr ⟨by omega, rfl, (hlast b hleft).mpr hv⟩⟩

/-- **The loop from a part on**: it succeeds on as many pairs as are missing. -/
theorem parseHwaddr_from_iff {s : List Byte} (hs : ∀ c ∈ s, c ≠ 0) (left : Nat) (done : List Byte)
    (hwaddr v : Vector Byte 6) (h : hwaddr.toList = done ++ List.replicate (left + 1) 0) :
    parseHwaddr (fun i => s.getD i 0) (left + 1) done.length hwaddr = some v ↔
      ∃ pairs bytes, s.drop (done.length * 3) = [0x3a].intercalate pairs ∧
        List.Forall₂ HexPair pairs bytes ∧ bytes.length = left + 1 ∧ v.toList = done ++ bytes := by
  induction left generalizing done hwaddr with
  | zero =>
    rw [parseHwaddr_pass_iff hs h]
    constructor
    · rintro ⟨c, d, b, rest, ht, hpair, ⟨rest', h0, -⟩ | ⟨-, rfl, hv⟩⟩
      · exact absurd rfl h0
      · exact ⟨[[c, d]], [b], ht.trans (intercalate_singleton ..).symm, .cons hpair .nil, rfl, hv⟩
    · rintro ⟨pairs, bytes, ht, hpairs, hbytes, hv⟩
      obtain ⟨b, rfl⟩ := List.length_eq_one_iff.mp hbytes
      obtain ⟨p, pairs, hpair, hnil, rfl⟩ := List.forall₂_cons_right_iff.mp hpairs
      obtain rfl := List.forall₂_nil_right_iff.mp hnil
      obtain ⟨c, d, x, y, rfl, -⟩ := id hpair
      exact ⟨c, d, b, [], ht.trans (intercalate_singleton ..), hpair, .inr ⟨rfl, rfl, hv⟩⟩
  | succ left ih =>
    rw [parseHwaddr_pass_iff hs h]
    -- the passes behind the colon work on the text behind it
    have hdrop : ∀ {c d e : Byte} {rest}, s.drop (done.length * 3) = c :: d :: e :: rest →
        s.drop ((done.length + 1) * 3) = rest := by
      intro c d e rest ht
      have hthree := congrArg (List.drop 3) ht
      rwa [List.drop_drop, show done.length * 3 + 3 = (done.length + 1) * 3 from by omega] at hthree
    have hrest : ∀ b, _ := fun b => ih (done ++ [b]) _ (toList_setIfInBounds_length h b)
    simp only [List.length_append, List.length_singleton] at hrest
    constructor
    · rintro ⟨c, d, b, rest, ht, hpair, ⟨rest', -, rfl, hparse⟩ | ⟨h0, -⟩⟩
      · obtain ⟨pairs, bytes, ht', hpairs, hbytes, hv⟩ := (hrest b).mp hparse
        refine ⟨[c, d] :: pairs, b :: bytes, ?_, .cons hpair hpairs, by simp [hbytes], ?_⟩
        · cases pairs with
          | nil => cases hpairs; cases hbytes
          | cons q pairs => rw [ht, intercalate_cons_cons, ← ht', hdrop ht]; rfl
        · rw [hv, List.append_assoc]
          rfl
      · cases h0
    · rintro ⟨pairs, bytes, ht, hpairs, hbytes, hv⟩
      obtain ⟨b, bytes, rfl⟩ := List.exists_cons_of_length_eq_add_one hbytes
      have hbytes' : bytes.length = left + 1 := Nat.succ.inj hbytes
      obtain ⟨p, pairs, hpair, hpairs', rfl⟩ := List.forall₂_cons_right_iff.mp hpairs
      obtain ⟨q, pairs, rfl⟩ : ∃ q rest, pairs = q :: rest := by
        apply List.exists_cons_of_length_pos
        rw [hpairs'.length_eq, hbytes']
        exact Nat.succ_pos left
      obtain ⟨c, d, x, y, rfl, -⟩ := id hpair
      rw [intercalate_cons_cons] at ht
      refine ⟨c, d, b, _, ht, hpair, .inl ⟨_, Nat.succ_ne_zero left, rfl, ?_⟩⟩
      refine (hrest b).mpr ⟨q :: pairs, bytes, hdrop ht, hpairs', hbytes', ?_⟩
      rw [hv, List.append_assoc]
      rfl

theorem parseHwaddr_eq_some_iff {s : List Byte} (hs : ∀ c ∈ s, c ≠ 0) (v : Vector Byte 6) :
    parseHwaddr (fun i => s.getD i 0) 6 0 (Vector.replicate 6 0) = some v ↔ IsHwaddr s v := by
  have hfrom := parseHwaddr_from_iff hs 5 [] (Vector.replicate 6 0) v rfl
  rw [List.length_nil, Nat.zero_mul, List.drop_zero] at hfrom
  rw [hfrom]
  constructor
  · rintro ⟨pairs, bytes, ht, hpairs, -, hv⟩
    exact ⟨pairs, ht, hv ▸ hpairs⟩
  · rintro ⟨pairs, ht, hpairs⟩
    exact ⟨pairs, v.toList, ht, hpairs, Vector.length_toList, rfl⟩

/-! ## The line -/

variable (inetAton : List Byte → Option (BitVec 32))

theorem commandSettings_hwaddr {s : List Byte} (hs : s ≠ ascii "eeprom") :
    commandSettings inetAton (ascii "hwaddr") (some s) =
      { hwaddr := parseHwaddr (fun i => s.getD i 0) 6 0 (Vector.replicate 6 0) } := by
  have h1 : ascii "hwaddr" ≠ ascii "dhcp" := by simp [ascii]
  have h2 : ascii "hwaddr" ≠ ascii "addr" := by simp [ascii]
  have h3 : ascii "hwaddr" ≠ ascii "mask" := by simp [ascii]
  have h4 : ascii "hwaddr" ≠ ascii "gw" := by simp [ascii]
  unfold commandSettings
  rw [if_neg h1, if_neg h2, if_neg h3, if_neg h4, if_pos rfl]
  exact if_neg hs

/-- Setting the address shows on some configuration. -/
theorem exists_ne_hwaddr (v : Vector Byte 6) :
    ∃ conf : NetConfig, conf ≠ { conf with hwaddr := v } := by
  by_contra hall
  rw [not_exists] at hall
  have h0 := congrArg NetConfig.hwaddr (not_not.mp (hall ⟨0, 0, 0, 0, Vector.replicate 6 0⟩))
  have h1 := congrArg NetConfig.hwaddr (not_not.mp (hall ⟨0, 0, 0, 0, Vector.replicate 6 1⟩))
  exact absurd (h0.trans h1.symm) (by decide)

/-- **What a `hwaddr` line does.** It is what `f_gets` returns next. It sets the address exactly if
the argument has the format, and then to the bytes it stands for; otherwise it changes nothing. The
argument is read up to its NUL at most, and an address that was printed is read back. -/
theorem hwaddr_line (lbuf : Vector Byte 64) {file s : List Byte} {more : List (List Byte)}
    (hwords : words lwipIsspace ((fGets (sizeofLbuf - 1) file).1.takeWhile (· != 0)) =
      ascii "hwaddr" :: s :: more) (hs : s ≠ ascii "eeprom") :
    let r := fGets (sizeofLbuf - 1) file
    let pass := netconfLine inetAton (stored r.1 lbuf.toList)
    (∀ conf, sdcardNetconf inetAton lbuf.toList conf file =
        sdcardNetconf inetAton (pass conf).1 (pass conf).2 r.2) ∧
      (∀ v, (∀ conf, (pass conf).2 = { conf with hwaddr := v }) ↔ IsHwaddr s v) ∧
      ((∀ conf, (pass conf).2 = conf) ↔ ¬ ∃ v, IsHwaddr s v) ∧
      (∃ lbuf' cmd arg, netconfWords (stored r.1 lbuf.toList) = some (lbuf', cmd, some arg) ∧
        cstr lbuf' arg = s ∧
        ∀ i ∈ hwaddrReads (fun i => byteAt lbuf' (arg + i)) 6 0 (Vector.replicate 6 0),
          i ≤ s.length) ∧
      ∀ v, s = printedHwaddr v → ∀ conf, (pass conf).2 = { conf with hwaddr := v } := by
  intro r pass
  have hchunk : r.1 ≠ [] := by
    intro hnil
    rw [show (fGets (sizeofLbuf - 1) file).1 = [] from hnil] at hwords
    cases hwords
  have hcode : ∀ conf, sdcardNetconf inetAton lbuf.toList conf file =
      sdcardNetconf inetAton (pass conf).1 (pass conf).2 r.2 := by
    intro conf
    rw [sdcardNetconf, dif_neg hchunk]
  rw [← cstr_stored _ lbuf.toList] at hwords
  obtain ⟨lbuf', cmd, arg, hfound, hcmd, harg⟩ :=
    netconfWords_of_words (terminated_stored r.1 lbuf.toList) hwords (by simp [ascii])
  obtain ⟨a, rfl, ha⟩ := Option.map_eq_some_iff.mp harg
  have hnz : ∀ c ∈ s, c ≠ 0 := by
    rw [← ha]
    exact fun c hc => cstr_ne_zero hc
  have hpass : ∀ conf, (pass conf).2 = { conf with hwaddr :=
      (parseHwaddr (fun i => s.getD i 0) 6 0 (Vector.replicate 6 0)).getD conf.hwaddr } := by
    intro conf
    show (netconfLine inetAton (stored r.1 lbuf.toList) conf).2 = _
    rw [netconfLine_words, hfound]
    show netconfCommand inetAton lbuf' cmd (some a) conf = _
    rw [netconfCommand_eq, hcmd, Option.map_some, ha, commandSettings_hwaddr inetAton hs]
    rfl
  refine ⟨hcode, ?_, ?_, ⟨lbuf', cmd, a, hfound, ha, ?_⟩, ?_⟩
  · intro v
    rw [← parseHwaddr_eq_some_iff hnz]
    simp only [hpass]
    constructor
    · intro h
      cases hparse : parseHwaddr (fun i => s.getD i 0) 6 0 (Vector.replicate 6 0) with
      | none =>
        obtain ⟨conf, hne⟩ := exists_ne_hwaddr v
        rw [hparse] at h
        exact absurd (h conf) hne
      | some w =>
        rw [hparse] at h
        exact congrArg some (congrArg NetConfig.hwaddr (h blankConf))
    · intro hparse conf
      rw [hparse]
      rfl
  · simp only [← parseHwaddr_eq_some_iff hnz, hpass, ← Option.isSome_iff_exists]
    constructor
    · intro h hsome
      obtain ⟨v, hv⟩ := Option.isSome_iff_exists.mp hsome
      obtain ⟨conf, hne⟩ := exists_ne_hwaddr v
      rw [hv] at h
      exact hne (h conf).symm
    · intro hnone conf
      rw [Option.not_isSome_iff_eq_none.mp hnone]
      rfl
  · rw [← ha]
    exact hwaddrReads_string_le lbuf' a _
  · intro v hv conf
    have hparse := (parseHwaddr_eq_some_iff hnz v).mpr (hv ▸ isHwaddr_printedHwaddr v)
    rw [hpass, hparse]
    rfl

/-- An address in both cases of letters, with a word behind it. -/
def hwaddrFile : List Byte := ascii " hwaddr 02:aB:00:9f:Fe:10 lab"

theorem hwaddr_line_mixed : (netconfLine inetStatic
    (stored (fGets (sizeofLbuf - 1) hwaddrFile).1 (Vector.replicate 64 0).toList) blankConf).2 =
      { blankConf with hwaddr := #v[0x02, 0xab, 0x00, 0x9f, 0xfe, 0x10] } := by
  have hwords : words lwipIsspace ((fGets (sizeofLbuf - 1) hwaddrFile).1.takeWhile (· != 0)) =
      [ascii "hwaddr", ascii "02:aB:00:9f:Fe:10", ascii "lab"] := by
    decide
  obtain ⟨-, hset, -⟩ :=
    hwaddr_line inetStatic (Vector.replicate 64 0) hwords (by decide)
  refine (hset _).mpr ?_ blankConf
  exact (parseHwaddr_eq_some_iff (by decide) _).mp (by decide)

end Acmi.Sdcard
