import Acmi.Sdcard.NetConf

/-!
# What NET.CNF says

A line of the file gives values to some of the settings (`lineSettings`): its first two words are
a command and its argument, and a line that is empty or begins with `#` gives nothing. The file
means what its lines give, the later ones overriding the earlier (`lineRule`, folded over the
lines).

The body of the loop does this for what is in the buffer (`netconfLine_eq`), so `sdcard_netconf`
follows the rule on the pieces that `f_gets` returns (`sdcardNetconf_eq`). A line of at most 63
characters is a piece, up to an empty one after it. A longer line is cut after every 63 characters,
and each part is obeyed as a line of its own (`foldl_pieces`). So the program and the file agree
exactly when cutting does not change what the lines give (`netconf_means_lines_iff`).
-/

namespace Acmi.Sdcard

open Acmi.Lib

/-! ## Settings -/

/-- A value for each setting that is given one. -/
structure Settings where
  addr : Option (BitVec 32) := none
  mask : Option (BitVec 32) := none
  gw : Option (BitVec 32) := none
  useStatic : Option Byte := none
  hwaddr : Option (Vector Byte 6) := none
  deriving DecidableEq

def Settings.apply (s : Settings) (conf : NetConfig) : NetConfig where
  addr := s.addr.getD conf.addr
  mask := s.mask.getD conf.mask
  gw := s.gw.getD conf.gw
  useStatic := s.useStatic.getD conf.useStatic
  hwaddr := s.hwaddr.getD conf.hwaddr

/-- `s` and then `t`, which overrides it. -/
def Settings.andThen (s t : Settings) : Settings where
  addr := t.addr.or s.addr
  mask := t.mask.or s.mask
  gw := t.gw.or s.gw
  useStatic := t.useStatic.or s.useStatic
  hwaddr := t.hwaddr.or s.hwaddr

@[simp] theorem Settings.apply_andThen (s t : Settings) (conf : NetConfig) :
    (s.andThen t).apply conf = t.apply (s.apply conf) := by
  simp [Settings.apply, Settings.andThen, Option.getD_or]

/-- A setting that is given, or not, shows in what becomes of two different values. -/
theorem getD_inj {β : Type} {a b : β} (hab : a ≠ b) {s t : Option β}
    (ha : s.getD a = t.getD a) (hb : s.getD b = t.getD b) : s = t := by
  cases s with
  | none =>
    cases t with
    | none => rfl
    | some y => exact absurd (ha.trans hb.symm) hab
  | some x =>
    cases t with
    | none => exact absurd (ha.symm.trans hb) hab
    | some y => exact congrArg some ha

/-- Settings that do the same to every configuration are the same. -/
theorem Settings.apply_inj {s t : Settings} (h : ∀ conf, s.apply conf = t.apply conf) : s = t := by
  have h0 := h ⟨0, 0, 0, 0, Vector.replicate 6 0⟩
  have h1 := h ⟨1, 1, 1, 1, Vector.replicate 6 1⟩
  simp only [Settings.apply, NetConfig.mk.injEq] at h0 h1
  obtain ⟨ha, hm, hg, hs, hw⟩ := h0
  obtain ⟨ha', hm', hg', hs', hw'⟩ := h1
  have hne : Vector.replicate 6 (0 : Byte) ≠ Vector.replicate 6 1 := by decide
  cases s
  cases t
  simp only [Settings.mk.injEq]
  exact ⟨getD_inj (by decide) ha ha', getD_inj (by decide) hm hm', getD_inj (by decide) hg hg',
    getD_inj (by decide) hs hs', getD_inj hne hw hw'⟩

/-! ## The rule -/

variable (inetAton : List Byte → Option (BitVec 32))

/-- What a command gives. -/
def commandSettings (cmd : List Byte) (arg : Option (List Byte)) : Settings :=
  if cmd = ascii "dhcp" then
    match arg with
    | none => { useStatic := some 0 }
    | some a =>
      if a = ascii "yes" then { useStatic := some 0 }
      else if a = ascii "no" then { useStatic := some 1 }
      else {}
  else if cmd = ascii "addr" then { addr := arg.bind inetAton, useStatic := some 1 }
  else if cmd = ascii "mask" then { mask := arg.bind inetAton }
  else if cmd = ascii "gw" then { gw := arg.bind inetAton }
  else if cmd = ascii "hwaddr" then
    match arg with
    | none => {}
    | some a =>
      if a = ascii "eeprom" then {}
      else { hwaddr := parseHwaddr (fun i => a.getD i 0) 6 0 (Vector.replicate 6 0) }
  else {}

/-- What a line gives: leading white space is dropped, an empty line or a comment gives nothing,
and otherwise the first two words count. -/
def lineSettings (line : List Byte) : Settings :=
  let body := line.dropWhile lwipIsspace
  if body = [] ∨ body.head? = some 0x23 then {}
  else
    match words lwipIsspace body with
    | [] => {}
    | cmd :: args => commandSettings inetAton cmd args.head?

/-- The rule for one line. -/
def lineRule (conf : NetConfig) (line : List Byte) : NetConfig :=
  (lineSettings inetAton line).apply conf

/-- The lines of a file. -/
def fileLines (file : List Byte) : List (List Byte) := file.splitOnP (· == 0x0a)

/-- What some lines give together: for each setting, what the last line that gives it gives. -/
def givenBy (lines : List (List Byte)) : Settings :=
  lines.foldl (fun s line => s.andThen (lineSettings inetAton line)) {}

theorem foldl_lineRule (lines : List (List Byte)) (s : Settings) (conf : NetConfig) :
    lines.foldl (lineRule inetAton) (s.apply conf) =
      (lines.foldl (fun s line => s.andThen (lineSettings inetAton line)) s).apply conf := by
  induction lines generalizing s with
  | nil => rfl
  | cons line lines ih =>
    rw [List.foldl_cons, List.foldl_cons, lineRule, ← Settings.apply_andThen, ih]

/-- Folding the rule over the lines puts in what they give. -/
theorem foldl_lineRule_eq (lines : List (List Byte)) (conf : NetConfig) :
    lines.foldl (lineRule inetAton) conf = (givenBy inetAton lines).apply conf :=
  foldl_lineRule inetAton lines {} conf

/-! ## One piece -/

/-- What the loop does not look at makes no difference. -/
theorem parseHwaddr_of_reads {arg arg' : Nat → Byte} (left n : Nat) (hwaddr : Vector Byte 6)
    (h : ∀ i ∈ hwaddrReads arg left n hwaddr, arg i = arg' i) :
    parseHwaddr arg left n hwaddr = parseHwaddr arg' left n hwaddr := by
  induction left generalizing n hwaddr with
  | zero => rfl
  | succ left ih =>
    rw [hwaddrReads, List.forall_mem_cons] at h
    rw [parseHwaddr, parseHwaddr, ← h.1]
    cases hhi : parseHex (arg (n * 3)) (hwaddr.getD n 0) with
    | none => rfl
    | some hi =>
      simp only [hhi, List.forall_mem_cons] at h
      show (parseHex (arg (n * 3 + 1)) (hi <<< 4)).bind _ =
        (parseHex (arg' (n * 3 + 1)) (hi <<< 4)).bind _
      rw [← h.2.1]
      cases hbyte : parseHex (arg (n * 3 + 1)) (hi <<< 4) with
      | none => rfl
      | some byte =>
        simp only [hbyte, List.forall_mem_cons] at h
        obtain ⟨-, -, hsep, hrest⟩ := h
        show (if _ then _ else _) = if _ then _ else _
        rw [← hsep]
        by_cases hc : n < 5 ∧ arg (n * 3 + 2) = 0x3a
        · rw [if_pos hc] at hrest
          rw [if_pos hc, if_pos hc]
          exact ih _ _ hrest
        · rw [if_neg hc, if_neg hc]

/-- The argument is read no further than its NUL. -/
theorem hwaddrReads_le {arg : Nat → Byte} {len : Nat} (hend : arg len = 0) (left n : Nat)
    (hwaddr : Vector Byte 6) (hn : n * 3 ≤ len) : ∀ i ∈ hwaddrReads arg left n hwaddr, i ≤ len := by
  have hnul : ∀ out : Byte, parseHex 0 out = none := fun _ => rfl
  have hlt : ∀ {i} {out x : Byte}, i ≤ len → parseHex (arg i) out = some x → i < len := by
    intro i out x hi hx
    refine Nat.lt_of_le_of_ne hi ?_
    rintro rfl
    rw [hend, hnul] at hx
    cases hx
  induction left generalizing n hwaddr with
  | zero =>
    intro i hi
    cases hi
  | succ left ih =>
    rw [hwaddrReads, List.forall_mem_cons]
    refine ⟨hn, ?_⟩
    cases hhi : parseHex (arg (n * 3)) (hwaddr.getD n 0) with
    | none =>
      intro i hi
      cases hi
    | some hi =>
      have h1 : n * 3 + 1 ≤ len := hlt hn hhi
      rw [List.forall_mem_cons]
      refine ⟨h1, ?_⟩
      cases hbyte : parseHex (arg (n * 3 + 1)) (hi <<< 4) with
      | none =>
        intro i hi
        cases hi
      | some byte =>
        have h2 : n * 3 + 2 ≤ len := hlt h1 hbyte
        rw [List.forall_mem_cons]
        refine ⟨h2, ?_⟩
        split_ifs with hc
        · -- a colon is not the NUL
          have h3 : n * 3 + 2 ≠ len := by
            intro h
            rw [h, hend] at hc
            exact absurd hc.2 (by decide)
          exact ih _ _ (by omega)
        · intro i hi
          cases hi

theorem hwaddrReads_string_le (lbuf : List Byte) (a : Nat) (hwaddr : Vector Byte 6) :
    ∀ i ∈ hwaddrReads (fun i => byteAt lbuf (a + i)) 6 0 hwaddr, i ≤ (cstr lbuf a).length := by
  have hend : byteAt lbuf (a + (cstr lbuf a).length) = 0 := by
    rw [byteAt_add (Nat.le_refl _)]
    simp
  exact @hwaddrReads_le (fun i => byteAt lbuf (a + i)) _ hend 6 0 hwaddr (Nat.zero_le _)

theorem parseHwaddr_string (lbuf : List Byte) (a : Nat) (hwaddr : Vector Byte 6) :
    parseHwaddr (fun i => byteAt lbuf (a + i)) 6 0 hwaddr =
      parseHwaddr (fun i => (cstr lbuf a).getD i 0) 6 0 hwaddr :=
  parseHwaddr_of_reads 6 0 hwaddr fun i hi => byteAt_add (hwaddrReads_string_le lbuf a hwaddr i hi)

/-- The commands give what their words say. -/
theorem netconfCommand_eq (lbuf : List Byte) (cmd : Nat) (arg : Option Nat) (conf : NetConfig) :
    netconfCommand inetAton lbuf cmd arg conf =
      (commandSettings inetAton (cstr lbuf cmd) (arg.map (cstr lbuf))).apply conf := by
  have hinet : ∀ out, sdcardParseInet inetAton lbuf arg out =
      ((arg.map (cstr lbuf)).bind inetAton).getD out := by
    intro out
    cases arg with
    | none => rfl
    | some a =>
      cases ha : inetAton (cstr lbuf a) with
      | none => simp [sdcardParseInet, ha]
      | some addr => simp [sdcardParseInet, ha]
  unfold netconfCommand commandSettings
  split_ifs with hdhcp haddr hmask hgw hhwaddr
  · cases arg with
    | none => rfl
    | some a =>
      simp only [Option.map_some]
      split_ifs <;> rfl
  · rw [hinet]
    rfl
  · rw [hinet]
    rfl
  · rw [hinet]
    rfl
  · cases arg with
    | none => rfl
    | some a =>
      simp only [Option.map_some]
      split_ifs with heeprom
      · rfl
      · rw [parseHwaddr_string]
        cases parseHwaddr (fun i => (cstr lbuf a).getD i 0) 6 0 (Vector.replicate 6 0) <;> rfl
  · rfl

theorem takeWhile_inWord {s : List Byte} (hs : ∀ c ∈ s, c ≠ 0) :
    s.takeWhile inWord = s.takeWhile (!lwipIsspace ·) := by
  induction s with
  | nil => rfl
  | cons c s ih =>
    have hc : inWord c = !lwipIsspace c := by
      have h0 : (c != 0) = true := bne_iff_ne.mpr (hs c List.mem_cons_self)
      rw [inWord, h0, Bool.true_and]
    rw [List.takeWhile_cons, List.takeWhile_cons, hc,
      ih fun d hd => hs d (List.mem_cons_of_mem c hd)]

theorem dropWhile_inWord {s : List Byte} (hs : ∀ c ∈ s, c ≠ 0) :
    s.dropWhile inWord = s.dropWhile (!lwipIsspace ·) := by
  rw [← drop_takeWhile_length, takeWhile_inWord hs, drop_takeWhile_length]

/-- What the words of a line are, for the loop that skips the white space between the first two. -/
theorem words_of_body {line body : List Byte} {c : Byte}
    (hbody : line.dropWhile lwipIsspace = c :: body) :
    let rest := ((c :: body).dropWhile (!lwipIsspace ·)).dropWhile lwipIsspace
    words lwipIsspace line =
        (c :: body).takeWhile (!lwipIsspace ·) :: words lwipIsspace rest ∧
      (words lwipIsspace rest).head? =
        if rest = [] then none else some (rest.takeWhile (!lwipIsspace ·)) := by
  intro rest
  have hspace : ∀ {xs ys : List Byte} {d : Byte}, xs.dropWhile lwipIsspace = d :: ys →
      lwipIsspace d = false := by
    intro xs ys d h
    have hne : xs.dropWhile lwipIsspace ≠ [] := by
      rw [h]
      exact List.cons_ne_nil d ys
    simpa [h] using List.head_dropWhile_not lwipIsspace hne
  constructor
  · rw [← words_dropWhile, hbody, words_of_head (hspace hbody), words_dropWhile]
  · cases hrest : rest with
    | nil => rfl
    | cons d ys =>
      rw [words_of_head (hspace hrest), if_neg (List.cons_ne_nil d ys), List.head?_cons]

theorem lineSettings_of_blank {line : List Byte} (h : line.dropWhile lwipIsspace = []) :
    lineSettings inetAton line = {} := by
  unfold lineSettings
  simp only [h, true_or, if_true]

theorem lwipIsspace_of_not_inWord {c : Byte} (hc : c ≠ 0) (h : inWord c = false) :
    lwipIsspace c = true := by
  have h0 : (c != 0) = true := bne_iff_ne.mpr hc
  rw [inWord, h0, Bool.true_and] at h
  simpa using h

/-- **What the scanning loops find**: nothing in a blank line or a comment, else the first two
words. -/
theorem netconfWords_spec {lbuf : List Byte} (hnul : Terminated lbuf 0) :
    let body := (cstr lbuf 0).dropWhile lwipIsspace
    if body = [] ∨ body.head? = some 0x23 then netconfWords lbuf = none
    else
      ∃ lbuf' cmd arg args, netconfWords lbuf = some (lbuf', cmd, arg) ∧
        words lwipIsspace (cstr lbuf 0) = cstr lbuf' cmd :: args ∧
        arg.map (cstr lbuf') = args.head? := by
  intro body
  have hword0 : inWord 0 = false := rfl
  have hspace0 : lwipIsspace 0 = false := rfl
  have hspace : ∀ c, c ≠ 0 → inWord c = false → lwipIsspace c = true :=
    fun _ => lwipIsspace_of_not_inWord
  unfold netconfWords
  extract_lets cmd cmdend line lbuf1 arg line2
  have hterm : Terminated lbuf cmd := hnul.scanned hspace0
  have hcmd : cstr lbuf cmd = body := cstr_scan hspace0 lbuf 0
  cases hbody : body with
  | nil =>
    have h0 : byteAt lbuf cmd = 0 := (byteAt_eq_zero_iff lbuf cmd).mpr (hcmd.trans hbody)
    rw [if_pos (Or.inl rfl), if_pos (Or.inl h0)]
  | cons c cs =>
    rw [hbody] at hcmd
    have hc : byteAt lbuf cmd = c := by
      rw [byteAt_eq, hcmd]
      rfl
    by_cases hcomment : c = 0x23
    · rw [hcomment] at hc
      have hhead : (c :: cs).head? = some 0x23 := congrArg some hcomment
      rw [if_pos (Or.inr hhead), if_pos (Or.inr hc)]
    have hnz : ∀ d ∈ c :: cs, d ≠ 0 := by
      intro d hd
      rw [← hcmd] at hd
      exact cstr_ne_zero hd
    have hgo : ¬ (byteAt lbuf cmd = 0 ∨ byteAt lbuf cmd = 0x23) := by
      rw [hc]
      rintro (h | h)
      · exact hnz c List.mem_cons_self h
      · exact hcomment h
    have hbody' : ¬ (c :: cs = [] ∨ (c :: cs).head? = some 0x23) := by
      rintro (h | h)
      · cases h
      · exact hcomment (Option.some.inj h)
    obtain ⟨hwords, hargs⟩ := words_of_body hbody
    rw [if_neg hgo, if_neg hbody', hwords]
    -- the first NUL leaves the command, and behind the white space what was there
    have hcmd1 : cstr lbuf1 cmd = (c :: cs).takeWhile (!lwipIsspace ·) := by
      rw [← takeWhile_inWord hnz, ← hcmd]
      exact cstr_chop hword0 hterm
    have hline1 : cstr lbuf1 line =
        ((c :: cs).dropWhile (!lwipIsspace ·)).dropWhile lwipIsspace := by
      rw [← dropWhile_inWord hnz, ← hcmd]
      exact cstr_chop_behind hspace0 hword0 hspace hterm
    have hterm1 : Terminated lbuf1 line := hterm.chopped hspace0 hword0 hspace
    generalize ((c :: cs).dropWhile (!lwipIsspace ·)).dropWhile lwipIsspace = rest at hline1 hargs ⊢
    by_cases hnone : rest = []
    · have h0 : byteAt lbuf1 line = 0 := (byteAt_eq_zero_iff lbuf1 line).mpr (hline1.trans hnone)
      rw [if_pos h0]
      rw [if_pos hnone] at hargs
      exact ⟨lbuf1, cmd, none, _, rfl, by rw [hcmd1], hargs.symm⟩
    · have h0 : ¬ byteAt lbuf1 line = 0 := by
        rw [byteAt_eq_zero_iff, hline1]
        exact hnone
      rw [if_neg h0]
      rw [if_neg hnone] at hargs
      -- the second one leaves the argument, and the command before it
      have harg2 : cstr (lbuf1.set line2 0) arg = rest.takeWhile (!lwipIsspace ·) := by
        rw [← takeWhile_inWord fun d hd => cstr_ne_zero (hline1 ▸ hd), ← hline1]
        exact cstr_chop hword0 hterm1
      have hle : cmd + (cstr lbuf1 cmd).length ≤ line := by
        have hcmdend : cmdend = cmd + (cstr lbuf1 cmd).length := by
          rw [hcmd1, ← takeWhile_inWord hnz, ← hcmd]
          exact scan_eq hword0 lbuf cmd
        rw [← hcmdend]
        exact le_scan lwipIsspace lbuf cmdend
      have hcmd2 : cstr (lbuf1.set line2 0) cmd = (c :: cs).takeWhile (!lwipIsspace ·) :=
        (cstr_chop_before hword0 hterm1 hle).trans hcmd1
      refine ⟨lbuf1.set line2 0, cmd, some arg, _, rfl, by rw [hcmd2], ?_⟩
      rw [Option.map_some, harg2, hargs]

/-- A line with words in it, the first of which does not begin with `#`. -/
theorem netconfWords_of_words {lbuf : List Byte} (hnul : Terminated lbuf 0) {word : List Byte}
    {args : List (List Byte)} (hwords : words lwipIsspace (cstr lbuf 0) = word :: args)
    (hword : word.head? ≠ some 0x23) :
    ∃ lbuf' cmd arg, netconfWords lbuf = some (lbuf', cmd, arg) ∧ cstr lbuf' cmd = word ∧
      arg.map (cstr lbuf') = args.head? := by
  have hspec := netconfWords_spec hnul
  dsimp only at hspec
  cases hbody : (cstr lbuf 0).dropWhile lwipIsspace with
  | nil =>
    rw [← words_dropWhile, hbody] at hwords
    cases hwords
  | cons c cs =>
    have hc : ¬ (c :: cs = [] ∨ (c :: cs).head? = some 0x23) := by
      rintro (h | h)
      · cases h
      · obtain rfl : c = 0x23 := Option.some.inj h
        rw [(words_of_body hbody).1] at hwords
        injection hwords with hfirst _
        exact hword (by rw [← hfirst]; rfl)
    rw [hbody, if_neg hc, hwords] at hspec
    obtain ⟨lbuf', cmd, arg, args', hcode, hcons, harg⟩ := hspec
    injection hcons with hfirst hrest
    exact ⟨lbuf', cmd, arg, hcode, hfirst.symm, hrest ▸ harg⟩

/-- **The body of the loop does what the line in the buffer says.** -/
theorem netconfLine_eq {lbuf : List Byte} (hnul : Terminated lbuf 0) (conf : NetConfig) :
    (netconfLine inetAton lbuf conf).2 = lineRule inetAton conf (cstr lbuf 0) := by
  have hspec := netconfWords_spec hnul
  dsimp only at hspec
  rw [netconfLine_words, lineRule, lineSettings]
  by_cases hbody : (cstr lbuf 0).dropWhile lwipIsspace = [] ∨
      ((cstr lbuf 0).dropWhile lwipIsspace).head? = some 0x23
  · rw [if_pos hbody] at hspec
    rw [if_pos hbody, hspec]
    rfl
  · rw [if_neg hbody] at hspec
    obtain ⟨lbuf', cmd, arg, args, hcode, hwords, harg⟩ := hspec
    rw [if_neg hbody, words_dropWhile, hcode, hwords]
    show netconfCommand inetAton lbuf' cmd arg conf = _
    rw [netconfCommand_eq, harg]

/-! ## The whole file -/

/-- What `f_gets` returns, call after call. -/
def pieces (file : List Byte) : List (List Byte) :=
  let r := fGets (sizeofLbuf - 1) file
  if _h : r.1 = [] then [] else r.1 :: pieces r.2
  termination_by file.length
  decreasing_by exact fGets_rest_length _h

/-- The string in the buffer ends at the first NUL that was read. -/
theorem cstr_stored (chunk lbuf : List Byte) :
    cstr (stored chunk lbuf) 0 = chunk.takeWhile (· != 0) := by
  have hall : ∀ rest : List Byte, (chunk ++ 0 :: rest).takeWhile (· != 0) =
      chunk.takeWhile (· != 0) := by
    intro rest
    induction chunk with
    | nil => rfl
    | cons c chunk ih =>
      by_cases hc : c = 0
      · rw [hc]
        rfl
      · rw [List.cons_append, string_cons hc, string_cons hc, ih]
  exact hall _

theorem terminated_stored (chunk lbuf : List Byte) : Terminated (stored chunk lbuf) 0 := by
  have hle := (List.takeWhile_prefix (l := chunk) (· != 0)).length_le
  rw [Terminated, cstr_stored, stored, List.length_append, List.length_cons]
  omega

/-- **`sdcard_netconf` follows the rule on the pieces it is given.** -/
theorem sdcardNetconf_eq {file : List Byte} (hnul : 0 ∉ file) (lbuf : List Byte)
    (conf : NetConfig) :
    sdcardNetconf inetAton lbuf conf file = (pieces file).foldl (lineRule inetAton) conf := by
  induction file using pieces.induct generalizing lbuf conf with
  | case1 file r h =>
    rw [sdcardNetconf, pieces, dif_pos h, dif_pos h]
    rfl
  | case2 file r h ih =>
    have happ : r.1 ++ r.2 = file := fGets_append _ file
    rw [← happ, List.mem_append, not_or] at hnul
    have hstored : cstr (stored r.1 lbuf) 0 = r.1 := by
      rw [cstr_stored, List.takeWhile_eq_self_iff]
      intro c hc
      exact bne_iff_ne.mpr fun h => hnul.1 (h ▸ hc)
    have hbody := netconfLine_eq inetAton (terminated_stored r.1 lbuf) conf
    rw [hstored] at hbody
    rw [sdcardNetconf, pieces, dif_neg h, dif_neg h]
    show sdcardNetconf inetAton _ _ r.2 = (pieces r.2).foldl _ (lineRule inetAton conf r.1)
    rw [ih hnul.2, ← hbody]

/-! ## Short lines -/

theorem fGets_line {line : List Byte} (hline : 0x0a ∉ line) (n : Nat) (file : List Byte) :
    fGets (line.length + n) (line ++ file) = (line ++ (fGets n file).1, (fGets n file).2) := by
  induction line with
  | nil => rw [List.length_nil, Nat.zero_add, List.nil_append, List.nil_append]
  | cons c line ih =>
    have hc : c ≠ 0x0a := fun h => hline (h ▸ List.mem_cons_self)
    rw [List.length_cons, Nat.add_right_comm, List.cons_append, fGets_cons _ hc,
      ih fun h => hline (List.mem_cons_of_mem c h), List.cons_append]

/-- A line that fits the buffer with its newline is read in one piece. -/
theorem fGets_short_line {line : List Byte} (hline : 0x0a ∉ line) (hlen : line.length ≤ 62)
    (file : List Byte) :
    fGets (sizeofLbuf - 1) (line ++ 0x0a :: file) = (line ++ [0x0a], file) := by
  have hread := fGets_line hline (62 - line.length + 1) (0x0a :: file)
  rw [fGets_newline, show line.length + (62 - line.length + 1) = 63 from by omega] at hread
  exact hread

theorem fGets_last_line {line : List Byte} (hline : 0x0a ∉ line) (hlen : line.length ≤ 63) :
    fGets (sizeofLbuf - 1) line = (line, []) := by
  have hread := fGets_line hline (63 - line.length) []
  have hnil : ∀ n, fGets n ([] : List Byte) = ([], []) := by
    intro n
    cases n <;> rfl
  rw [Nat.add_sub_cancel' hlen, hnil, List.append_nil] at hread
  exact hread

theorem pieces_of_ne {file chunk rest : List Byte} (h : fGets (sizeofLbuf - 1) file = (chunk, rest))
    (hne : chunk ≠ []) : pieces file = chunk :: pieces rest := by
  rw [pieces]
  simp only [h, dif_neg hne]

theorem pieces_nil : pieces [] = [] := by
  rw [pieces]
  rfl

/-- A newline at the end of a piece is white space like any other. -/
theorem lineSettings_newline (line : List Byte) :
    lineSettings inetAton (line ++ [0x0a]) = lineSettings inetAton line := by
  cases hbody : line.dropWhile lwipIsspace with
  | nil =>
    have hall : ∀ c ∈ line ++ [0x0a], lwipIsspace c = true := by
      intro c hc
      rcases List.mem_append.mp hc with h | h
      · exact List.dropWhile_eq_nil_iff.mp hbody c h
      · rw [List.mem_singleton.mp h]
        rfl
    rw [lineSettings_of_blank inetAton hbody,
      lineSettings_of_blank inetAton (List.dropWhile_eq_nil_iff.mpr hall)]
  | cons c body =>
    have hbody' : (line ++ [0x0a]).dropWhile lwipIsspace = c :: (body ++ [0x0a]) := by
      rw [List.dropWhile_append, hbody]
      rfl
    have hwords : words lwipIsspace (c :: (body ++ [0x0a])) = words lwipIsspace (c :: body) := by
      rw [← List.cons_append, words_append_sep rfl, words_nil, List.append_nil]
    unfold lineSettings
    simp only [hbody, hbody', hwords, reduceCtorEq, false_or, List.head?_cons]

/-- A line and its newline, as the loop gets them: in one piece, or the newline by itself. -/
theorem foldl_pieces_line {line : List Byte} (hline : 0x0a ∉ line) (hlen : line.length ≤ 63)
    (file : List Byte) (conf : NetConfig) :
    (pieces (line ++ 0x0a :: file)).foldl (lineRule inetAton) conf =
      (pieces file).foldl (lineRule inetAton) (lineRule inetAton conf line) := by
  rcases Nat.eq_or_lt_of_le hlen with h63 | h63
  · -- the newline does not fit any more, and is the next piece
    have hne : line ≠ [] := by
      intro h
      rw [h] at h63
      cases h63
    have hread := fGets_line hline 0 (0x0a :: file)
    rw [h63, fGets, List.append_nil] at hread
    have hnewline : fGets (sizeofLbuf - 1) (0x0a :: file) = ([0x0a], file) := fGets_newline 62 file
    rw [pieces_of_ne hread hne, pieces_of_ne hnewline (List.cons_ne_nil _ _), List.foldl_cons,
      List.foldl_cons]
    have hblank : lineRule inetAton (lineRule inetAton conf line) [0x0a] =
        lineRule inetAton conf line := by
      rw [lineRule, lineSettings_of_blank inetAton rfl]
      rfl
    rw [hblank]
  · have hread := fGets_short_line hline (Nat.le_of_lt_succ h63) file
    have hne : line ++ [0x0a] ≠ [] := List.append_ne_nil_of_right_ne_nil _ (List.cons_ne_nil _ _)
    rw [pieces_of_ne hread hne, List.foldl_cons]
    show (pieces file).foldl _ ((lineSettings inetAton (line ++ [0x0a])).apply conf) = _
    rw [lineSettings_newline]
    rfl

/-- The last line, when the file does not end with a newline. -/
theorem foldl_pieces_last {line : List Byte} (hline : 0x0a ∉ line) (hlen : line.length ≤ 63)
    (conf : NetConfig) :
    (pieces line).foldl (lineRule inetAton) conf = lineRule inetAton conf line := by
  cases hl : line with
  | nil =>
    rw [pieces_nil, lineRule, lineSettings_of_blank inetAton rfl]
    rfl
  | cons c cs =>
    have hne : line ≠ [] := by
      rw [hl]
      exact List.cons_ne_nil c cs
    rw [← hl, pieces_of_ne (fGets_last_line hline hlen) hne, pieces_nil]
    rfl

/-! ## Long lines -/

/-- A line in the parts the buffer has room for. -/
def cut (line : List Byte) : List (List Byte) :=
  if line.length ≤ 63 then [line] else line.take 63 :: cut (line.drop 63)
  termination_by line.length
  decreasing_by
    rw [List.length_drop]
    omega

theorem cut_of_short {line : List Byte} (h : line.length ≤ 63) : cut line = [line] := by
  rw [cut, if_pos h]

/-- The buffer is full before the line ends: the rest of the line is read like a file that begins
with it. -/
theorem pieces_of_long {line : List Byte} (hline : 0x0a ∉ line) (h : ¬ line.length ≤ 63)
    (file : List Byte) :
    pieces (line ++ file) = line.take 63 :: pieces (line.drop 63 ++ file) := by
  have hlen : (line.take 63).length = 63 := by
    rw [List.length_take]
    omega
  have hpart : 0x0a ∉ line.take 63 := fun hc => hline (List.mem_of_mem_take hc)
  have hread := fGets_line hpart 0 (line.drop 63 ++ file)
  rw [hlen, fGets, List.append_nil, ← List.append_assoc, List.take_append_drop] at hread
  apply pieces_of_ne hread
  intro hnil
  rw [hnil] at hlen
  cases hlen

/-- Any line and its newline, as the loop gets them: in its parts. -/
theorem foldl_pieces_cut {line : List Byte} (hline : 0x0a ∉ line) (file : List Byte)
    (conf : NetConfig) :
    (pieces (line ++ 0x0a :: file)).foldl (lineRule inetAton) conf =
      (pieces file).foldl (lineRule inetAton) ((cut line).foldl (lineRule inetAton) conf) := by
  induction line using cut.induct generalizing conf with
  | case1 line h =>
    rw [cut_of_short h]
    exact foldl_pieces_line inetAton hline h file conf
  | case2 line h ih =>
    rw [cut, if_neg h, pieces_of_long hline h, List.foldl_cons, List.foldl_cons]
    exact ih (fun hc => hline (List.mem_of_mem_drop hc)) _

/-- Any last line. -/
theorem foldl_pieces_cut_last {line : List Byte} (hline : 0x0a ∉ line) (conf : NetConfig) :
    (pieces line).foldl (lineRule inetAton) conf =
      (cut line).foldl (lineRule inetAton) conf := by
  induction line using cut.induct generalizing conf with
  | case1 line h =>
    rw [cut_of_short h]
    exact foldl_pieces_last inetAton hline h conf
  | case2 line h ih =>
    have hpieces := pieces_of_long hline h []
    rw [List.append_nil, List.append_nil] at hpieces
    rw [cut, if_neg h, hpieces, List.foldl_cons, List.foldl_cons]
    exact ih (fun hc => hline (List.mem_of_mem_drop hc)) _

/-- The loop obeys the file as if each part of a line were a line. -/
theorem foldl_pieces (file : List Byte) (conf : NetConfig) :
    (pieces file).foldl (lineRule inetAton) conf =
      ((fileLines file).flatMap cut).foldl (lineRule inetAton) conf := by
  -- on the number of bytes left: the first line goes, with its newline if there is one
  induction hn : file.length using Nat.strong_induction_on generalizing file conf with
  | _ n ih =>
    by_cases hmem : 0x0a ∈ file
    · obtain ⟨line, rest, hfile, hline⟩ := List.eq_append_cons_of_mem hmem
      have hlines : fileLines file = line :: fileLines rest := by
        rw [fileLines, hfile]
        apply List.splitOnP_append_cons_of_forall_mem
        · intro c hc
          simpa using fun h : c = 0x0a => hline (h ▸ hc)
        · rfl
      have hlt : rest.length < n := by
        rw [← hn, hfile, List.length_append, List.length_cons]
        omega
      rw [hlines, hfile, foldl_pieces_cut inetAton hline, List.flatMap_cons, List.foldl_append]
      exact ih rest.length hlt rest _ rfl
    · have hlines : fileLines file = [file] := by
        apply List.splitOnP_eq_singleton
        intro c hc
        simpa using fun h : c = 0x0a => hmem (h ▸ hc)
      rw [hlines, List.flatMap_singleton]
      exact foldl_pieces_cut_last inetAton hmem conf

/-- A file whose lines all fit the buffer is not cut. -/
theorem flatMap_cut_of_short {lines : List (List Byte)} (h : ∀ line ∈ lines, line.length ≤ 63) :
    lines.flatMap cut = lines := by
  induction lines with
  | nil => rfl
  | cons line lines ih =>
    rw [List.flatMap_cons, cut_of_short (h line List.mem_cons_self),
      ih fun l hl => h l (List.mem_cons_of_mem line hl)]
    rfl

/-! ## The program and the file -/

/-- **NET.CNF means what its lines say exactly when cutting the long ones makes no difference.**
For each setting, the last line that gives it has to give what the last part of a line that gives
it gives. A file without a line of more than 63 characters is not cut at all. -/
theorem netconf_means_lines_iff (file : List Byte) (hnul : 0 ∉ file) :
    ((∀ (lbuf : Vector Byte 64) conf, sdcardNetconf inetAton lbuf.toList conf file =
        (fileLines file).foldl (lineRule inetAton) conf) ↔
      givenBy inetAton ((fileLines file).flatMap cut) = givenBy inetAton (fileLines file)) ∧
    ((∀ line ∈ fileLines file, line.length ≤ 63) →
      givenBy inetAton ((fileLines file).flatMap cut) = givenBy inetAton (fileLines file)) := by
  have hcode : ∀ lbuf conf, sdcardNetconf inetAton lbuf conf file =
      (givenBy inetAton ((fileLines file).flatMap cut)).apply conf := by
    intro lbuf conf
    rw [sdcardNetconf_eq inetAton hnul, foldl_pieces, foldl_lineRule_eq]
  refine ⟨⟨?_, ?_⟩, ?_⟩
  · intro h
    apply Settings.apply_inj
    intro conf
    rw [← hcode (Vector.replicate 64 0).toList conf, h, foldl_lineRule_eq]
  · intro h lbuf conf
    rw [hcode, h, foldl_lineRule_eq]
  · intro hshort
    rw [flatMap_cut_of_short hshort]

/-- An address, a comment and a blank line. -/
def staticFile : List Byte := ascii "addr 1.2.2.4 \n# one board\n\n"

/-- The address of `staticFile`, as `inet_aton` reads it. -/
def inetStatic (s : List Byte) : Option (BitVec 32) :=
  if s = ascii "1.2.2.4" then some 0x04020201 else none

def blankConf : NetConfig := ⟨0, 0, 0, 0, Vector.replicate 6 0⟩

theorem netconf_static :
    0 ∉ staticFile ∧
    sdcardNetconf inetStatic (Vector.replicate 64 0).toList blankConf staticFile =
      { blankConf with addr := 0x04020201, useStatic := 1 } := by
  have hnul : 0 ∉ staticFile := by decide
  have hshort : ∀ line ∈ fileLines staticFile, line.length ≤ 63 := by decide
  have h := netconf_means_lines_iff inetStatic staticFile hnul
  refine ⟨hnul, ?_⟩
  rw [h.1.mpr (h.2 hshort)]
  decide

/-- A comment of 70 characters. -/
def longComment : List Byte := ascii "#" ++ List.replicate 62 0x78 ++ ascii "dhcp no"

/-- The end of a long comment is obeyed. -/
theorem comment_obeyed :
    ¬ ∀ (file : List Byte), 0 ∉ file → ∀ (lbuf : Vector Byte 64) conf,
      sdcardNetconf (fun _ => none) lbuf.toList conf file =
        (fileLines file).foldl (lineRule fun _ => none) conf := by
  intro h
  have hone := h longComment (by decide) (Vector.replicate 64 0) blankConf
  have hcode : (sdcardNetconf (fun _ => none) (Vector.replicate 64 0).toList blankConf
      longComment).useStatic = 1 := by decide +kernel
  have hlines :
      ((fileLines longComment).foldl (lineRule fun _ => none) blankConf).useStatic = 0 := by
    decide
  rw [hone, hlines] at hcode
  cases hcode

end Acmi.Sdcard
