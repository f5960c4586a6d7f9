import Nctuos.PrintField
import Nctuos.Lib.StringInstr

/-!
# Where the output goes

`vprintfmt` calls a `putch` for every character, and there are three of them.  `vsnprintf` of
`lib/printfmt.c` stores the characters in a buffer, as long as there is room in front of the last
byte, and counts them all.  `vprintk` of `kernel/printf.c` passes them to `k_putch` one by one.
`vcprintf` of `lib/printf.c` collects 255 of them at a time for `puts`, and `do_puts` of
`kernel/syscall.c` then reads them back and passes them to `k_putch`.

What was passed on and what still waits in the buffer are one stream (`Cprintf.Collects`), so it does
not matter where it is cut.

The strings among the arguments are values here: they are not in the buffer that is written.
-/

namespace Nctuos

open Lib

/-- The conversion of an `int` to a `char`, or to an `unsigned char`. -/
def lowByte (ch : Int) : BitVec 8 := BitVec.ofInt 8 ch

/-! ## `vsnprintf` -/

structure SprintBuf where
  buf : BitVec 32
  ebuf : BitVec 32
  cnt : Int
  deriving DecidableEq, Repr

/-- The buffer, and the stores so far. -/
def sprintputch (s : SprintBuf × List (BitVec 32 × BitVec 8)) (ch : Int) :
    SprintBuf × List (BitVec 32 × BitVec 8) :=
  let b := { s.1 with cnt := wrap32 (s.1.cnt + 1) }
  if b.buf < b.ebuf then ({ b with buf := b.buf + 1 }, s.2 ++ [(b.buf, lowByte ch)]) else (b, s.2)

/-- What is returned, and what is stored where; `E_INVAL` is 3. -/
def vsnprintf (fuel : Nat) (buf n : BitVec 32) (f : List (BitVec 8)) (ap : List Arg) :
    Except Stop (Int × List (BitVec 32 × BitVec 8)) :=
  if buf = 0 ∨ n.toInt < 1 then .ok (-3, [])
  else do
    let t ← vprintfmt fuel f ap
    let r := t.foldl sprintputch (⟨buf, buf + n - 1, 0⟩, [])
    -- null terminate the buffer
    .ok (r.1.cnt, r.2 ++ [(r.1.buf, 0)])

/-- Bytes stored from an address on. -/
def storesAt (a : BitVec 32) (bytes : List (BitVec 8)) : List (BitVec 32 × BitVec 8) :=
  bytes.mapIdx fun i b => (a + BitVec.ofNat 32 i, b)

example : vsnprintf 20 0x1000 4 (bytesOf "%d") [.int 12345] =
    .ok (5, storesAt 0x1000 (bytesOf "123" ++ [0])) := by decide +kernel

section Sprint

variable {t : List Int} {buf n a e : BitVec 32} {c : Int} {st : List (BitVec 32 × BitVec 8)}
  {f : List (BitVec 8)} {ap : List Arg}

theorem storesAt_cons (a : BitVec 32) (b : BitVec 8) (bytes : List (BitVec 8)) :
    storesAt a (b :: bytes) = (a, b) :: storesAt (a + 1) bytes := by
  have haddr (i : Nat) : a + BitVec.ofNat 32 (i + 1) = a + 1 + BitVec.ofNat 32 i := by
    rw [BitVec.ofNat_add, BitVec.add_assoc, BitVec.add_comm (BitVec.ofNat 32 i)]
    rfl
  rw [storesAt, storesAt, List.mapIdx_cons, BitVec.add_zero]
  simp only [haddr]

theorem storesAt_append (a : BitVec 32) (bytes : List (BitVec 8)) (b : BitVec 8) :
    storesAt a (bytes ++ [b]) = storesAt a bytes ++ [(a + BitVec.ofNat 32 bytes.length, b)] := by
  rw [storesAt, storesAt, List.mapIdx_concat]

/-- The characters that there is room for are stored, and all are counted. -/
theorem foldl_sprintputch (hae : a.toNat ≤ e.toNat) (hc : wrap32 c = c) :
    t.foldl sprintputch (⟨a, e, c⟩, st) =
      (⟨a + BitVec.ofNat 32 (min (e.toNat - a.toNat) t.length), e, wrap32 (c + t.length)⟩,
        st ++ storesAt a ((t.take (e.toNat - a.toNat)).map lowByte)) := by
  induction t generalizing a c st with
  | nil =>
      rw [List.foldl_nil, List.length_nil, Nat.min_zero, List.take_nil, List.map_nil,
        Int.natCast_zero, Int.add_zero, hc]
      simp [storesAt]
  | cons ch t ih =>
      have hc' := wrap32_idem (c + 1)
      have hcnt : wrap32 (wrap32 (c + 1) + t.length) = wrap32 (c + (ch :: t).length) := by
        rw [wrap32_wrap32_add, List.length_cons, Int.natCast_succ, Int.add_assoc,
          Int.add_comm (t.length : Int)]
      rw [List.foldl_cons, sprintputch]
      dsimp only
      split
      · rename_i hlt
        have hnext : (a + 1).toNat = a.toNat + 1 := by
          rw [BitVec.lt_def] at hlt
          rw [BitVec.toNat_add]
          exact Nat.mod_eq_of_lt (by have := e.isLt; change a.toNat + 1 < 2 ^ 32; omega)
        have hroom : e.toNat - a.toNat = e.toNat - (a.toNat + 1) + 1 := by
          rw [BitVec.lt_def] at hlt
          omega
        rw [ih (by rw [BitVec.lt_def] at hlt; omega) hc', hcnt, hnext, hroom, List.take_succ_cons,
          List.map_cons, storesAt_cons, List.append_assoc, List.length_cons, Nat.add_min_add_right,
          BitVec.ofNat_add, BitVec.add_assoc, BitVec.add_comm 1]
        rfl
      · rename_i hle
        have hroom : e.toNat - a.toNat = 0 := by
          rw [BitVec.lt_def] at hle
          omega
        rw [ih hae hc', hcnt, hroom, Nat.zero_min, Nat.zero_min, List.take_zero, List.take_zero]

/-- A buffer of `n` bytes gets what fits in front of its last byte, and a NUL. -/
theorem vsnprintf_eq (fuel : Nat) (hbuf : buf ≠ 0) (hn : 1 ≤ n.toInt)
    (hfits : buf.toNat + n.toNat ≤ 2 ^ 32) (h : vprintfmt fuel f ap = .ok t) :
    vsnprintf fuel buf n f ap =
      .ok (wrap32 t.length, storesAt buf ((t.take (n.toNat - 1)).map lowByte ++ [0])) := by
  have hnat : n.toInt = n.toNat := by
    rw [BitVec.toInt_eq_toNat_cond] at hn ⊢
    split at hn
    · rw [if_pos (by assumption)]
    · have := n.isLt
      omega
  have hpos := buf.isLt
  have hebuf : (buf + n - 1).toNat = buf.toNat + (n.toNat - 1) := by
    rw [BitVec.toNat_sub, BitVec.toNat_add]
    change (2 ^ 32 - 1 + (buf.toNat + n.toNat) % 2 ^ 32) % 2 ^ 32 = _
    omega
  have hroom : (buf + n - 1).toNat - buf.toNat = n.toNat - 1 := by omega
  have hlen : ((t.take (n.toNat - 1)).map lowByte).length = min (n.toNat - 1) t.length := by
    rw [List.length_map, List.length_take]
  rw [vsnprintf, if_neg (by rw [not_or]; exact ⟨hbuf, by omega⟩), h, ok_bind,
    foldl_sprintputch (by omega) (by decide), hroom, Int.zero_add, List.nil_append,
    storesAt_append, hlen]

/-- All of the stores are in the buffer. -/
theorem storesAt_inside {bytes : List (BitVec 8)} {k : Nat} (hlen : bytes.length ≤ k)
    (hfits : a.toNat + k ≤ 2 ^ 32) {p : BitVec 32 × BitVec 8} (hp : p ∈ storesAt a bytes) :
    a.toNat ≤ p.1.toNat ∧ p.1.toNat < a.toNat + k := by
  obtain ⟨i, hi, rfl⟩ := List.mem_mapIdx.mp hp
  dsimp only
  rw [BitVec.toNat_add, BitVec.toNat_ofNat]
  omega

end Sprint

/-- Where the format and the arguments make `vprintfmt` emit `t`, `vsnprintf` stores the first
`n - 1` characters of it and a NUL, one byte after the other and nothing else, and returns the length
of `t` as an `int`; without a buffer it returns `-E_INVAL` and stores nothing. -/
theorem vsnprintf_truncates (buf n : BitVec 32) (f : List (BitVec 8)) (ap : List Arg) (t : List Int)
    (ht : Emits f ap t) :
    (buf = 0 ∨ n.toInt < 1 → ∀ fuel, vsnprintf fuel buf n f ap = .ok (-3, [])) ∧
    (buf ≠ 0 → 1 ≤ n.toInt → buf.toNat + n.toNat ≤ 2 ^ 32 →
      Settles (fun fuel => vsnprintf fuel buf n f ap)
        (.ok (wrap32 t.length, storesAt buf ((t.take (n.toNat - 1)).map lowByte ++ [0]))) ∧
      (∀ p ∈ storesAt buf ((t.take (n.toNat - 1)).map lowByte ++ [0]),
        buf.toNat ≤ p.1.toNat ∧ p.1.toNat < buf.toNat + n.toNat) ∧
      (t.length < 2 ^ 31 → wrap32 t.length = t.length)) := by
  refine ⟨fun hnone fuel => if_pos hnone, fun hbuf hn hfits => ⟨?_, ?_, fun hlen => ?_⟩⟩
  · obtain ⟨k, hk⟩ := ht
    exact ⟨k, fun fuel hfuel => vsnprintf_eq fuel hbuf hn hfits (hk fuel hfuel)⟩
  · have hpos : 1 ≤ n.toNat := by
      by_contra h
      have : n = 0 := BitVec.eq_of_toNat_eq (by change n.toNat = 0; omega)
      subst this
      exact absurd hn (by decide)
    intro p hp
    refine storesAt_inside ?_ hfits hp
    rw [List.length_append, List.length_map, List.length_take]
    change min (n.toNat - 1) t.length + 1 ≤ n.toNat
    omega
  · exact wrap32_of_mem (by omega) (by omega)

/-- Five digits in four bytes. -/
theorem vsnprintf_truncates_12345 :
    Settles (fun fuel => vsnprintf fuel 0x1000 4 (bytesOf "%5d") [.int 12345])
      (.ok (5, [(0x1000, ascii '1'), (0x1001, ascii '2'), (0x1002, ascii '3'), (0x1003, 0)])) := by
  have ht : Emits (bytesOf "%5d") [.int 12345] (echo (bytesOf "12345")) :=
    @emits_signedDirective 5 .space (by decide) (.int 12345)
  have hstores : storesAt 0x1000
      (((echo (bytesOf "12345")).take ((4 : BitVec 32).toNat - 1)).map lowByte ++ [0]) =
        [(0x1000, ascii '1'), (0x1001, ascii '2'), (0x1002, ascii '3'), (0x1003, 0)] := by decide
  have hlen : wrap32 (echo (bytesOf "12345")).length = 5 := by decide
  rw [← hstores, ← hlen]
  exact ((vsnprintf_truncates 0x1000 4 (bytesOf "%5d") [.int 12345] _ ht).2 (by decide) (by decide)
    (by decide)).1

/-- A number of one digit, in a field of its own behind a text. -/
theorem emits_digit {N : Nat} {text : List (BitVec 8)} {v : BitVec 32} {c : Char}
    (htext : ∀ m ∈ text, m ≠ ascii '%' ∧ m ≠ 0) (hN : 0 < N) (hlt : N < 2 ^ 31)
    (hsign : signOf (SignedArg.int v).value = [])
    (hdigits : digitsOf (SignedArg.int v).value = [charInt c]) :
    Emits (text ++ signedDirective .space N (.int v)) [.int v]
      (echo text ++ (List.replicate (N - 1) (charInt ' ') ++ [charInt c])) := by
  have hout := emits_text_signed text htext .space hN (.int v)
  have hpad : (wrap32 (N - ([charInt c].length : Nat))).toNat = N - 1 := by
    rw [wrap32_of_mem (by simp; omega) (by simp; omega)]
    simp
  rw [hsign, hdigits, hpad, List.nil_append] at hout
  exact hout

/-- A text of as many characters as no `int` can count. -/
def longText : List Int :=
  charInt 'x' :: (List.replicate 2147483646 (charInt ' ') ++ [charInt '1'])

theorem longText_length : longText.length = 2 ^ 31 := by
  rw [longText, List.length_cons, List.length_append, List.length_replicate]
  rfl

theorem longText_emitted : Emits (bytesOf "x%2147483647d") [.int 1] longText := by
  have hformat : bytesOf "x%2147483647d" =
      [ascii 'x'] ++ signedDirective .space 2147483647 (.int 1) := by decide
  rw [hformat]
  exact emits_digit (by decide) (by decide) (by decide) rfl (by decide)

/-- The count of 2^31 characters is negative. -/
theorem vsnprintf_count_wraps :
    Emits (bytesOf "x%2147483647d") [.int 1] longText ∧ longText.length = 2147483648 ∧
      Settles (fun fuel => vsnprintf fuel 0x1000 4 (bytesOf "x%2147483647d") [.int 1])
        (.ok (-2147483648, storesAt 0x1000 (bytesOf "x  " ++ [0]))) := by
  refine ⟨longText_emitted, longText_length, ?_⟩
  obtain ⟨k, hk⟩ := longText_emitted
  refine ⟨k, fun fuel hfuel => ?_⟩
  have h := vsnprintf_eq fuel (by decide : (0x1000 : BitVec 32) ≠ 0)
    (by decide : 1 ≤ (4 : BitVec 32).toInt) (by decide) (hk fuel hfuel)
  rw [longText_length] at h
  exact h

/-! ## `printk` -/

namespace Printk

/-- The count, and what has been passed to `k_putch`. -/
def putch (s : Int × List (BitVec 8)) (ch : Int) : Int × List (BitVec 8) :=
  (wrap32 (s.1 + 1), s.2 ++ [lowByte ch])

end Printk

def vprintk (fuel : Nat) (f : List (BitVec 8)) (ap : List Arg) :
    Except Stop (Int × List (BitVec 8)) := do
  let t ← vprintfmt fuel f ap
  .ok (t.foldl Printk.putch (0, []))

/-! ## `cprintf` -/

/-- The loop of `do_puts`: what it passes to `k_putch`, behind `out`. -/
def doPuts : Nat → Nat → ByteRam → List (BitVec 8) → ByteRam × List (BitVec 8)
  | _, 0, m, out => (m, out)
  | str, len + 1, m, out =>
      doPuts (str + 1) len { m with used := str :: m.used } (out ++ [m.byte str])

/-- The `struct`; the addresses in `buf` are indices. -/
structure PrintBuf where
  idx : Nat
  cnt : Int
  buf : ByteRam

namespace Cprintf

def putch (s : PrintBuf × List (BitVec 8)) (ch : Int) : PrintBuf × List (BitVec 8) :=
  let buf := s.1.buf.stos 1 (lowByte ch).toNat s.1.idx
  let idx := s.1.idx + 1
  let cnt := wrap32 (s.1.cnt + 1)
  if idx = 256 - 1 then
    -- `puts`
    let r := doPuts 0 idx buf s.2
    (⟨0, cnt, r.1⟩, r.2)
  else (⟨idx, cnt, buf⟩, s.2)

end Cprintf

/-- What is returned, what is passed to `k_putch`, and the buffer, which had `garbage` in it. -/
def vcprintf (fuel : Nat) (f : List (BitVec 8)) (ap : List Arg) (garbage : Nat → BitVec 8) :
    Except Stop (Int × List (BitVec 8) × ByteRam) := do
  let t ← vprintfmt fuel f ap
  let r := t.foldl Cprintf.putch (⟨0, 0, ⟨garbage, []⟩⟩, [])
  let s := doPuts 0 r.1.idx r.1.buf r.2
  .ok (r.1.cnt, s.2, s.1)

section Printing

variable {t done : List Int} {str len : Nat} {m : ByteRam} {out : List (BitVec 8)}

theorem foldl_printkPutch (c : Int) (out : List (BitVec 8)) (hc : wrap32 c = c) :
    t.foldl Printk.putch (c, out) = (wrap32 (c + t.length), out ++ t.map lowByte) := by
  induction t generalizing c out with
  | nil =>
      rw [List.foldl_nil, List.length_nil, Int.natCast_zero, Int.add_zero, hc, List.map_nil,
        List.append_nil]
  | cons ch t ih =>
      rw [List.foldl_cons, Printk.putch, ih _ _ (wrap32_idem (c + 1)), wrap32_wrap32_add,
        List.map_cons, List.append_assoc, List.length_cons, Int.natCast_succ, Int.add_assoc,
        Int.add_comm (t.length : Int)]
      rfl

theorem vprintk_eq (fuel : Nat) (f : List (BitVec 8)) (ap : List Arg) :
    vprintk fuel f ap =
      (vprintfmt fuel f ap).map fun t => (wrap32 t.length, t.map lowByte) := by
  rw [vprintk]
  cases vprintfmt fuel f ap with
  | error e => rfl
  | ok t =>
      rw [ok_bind, foldl_printkPutch 0 [] (by decide), Int.zero_add, List.nil_append]
      rfl

theorem vprintk_settles {f : List (BitVec 8)} {ap : List Arg} (ht : Emits f ap t) :
    Settles (fun fuel => vprintk fuel f ap) (.ok (wrap32 t.length, t.map lowByte)) := by
  obtain ⟨k, hk⟩ := ht
  refine ⟨k, fun fuel hfuel => ?_⟩
  have h : vprintfmt fuel f ap = .ok t := hk fuel hfuel
  dsimp only
  rw [vprintk_eq, h]
  rfl

/-- The loop reads the bytes in order, and nothing else. -/
theorem doPuts_eq (str len : Nat) (m : ByteRam) (out : List (BitVec 8)) :
    (doPuts str len m out).1.byte = m.byte ∧
      (∀ i ∈ (doPuts str len m out).1.used, i ∈ m.used ∨ str ≤ i ∧ i < str + len) ∧
      (doPuts str len m out).2 = out ++ (ByteRam.span str len).map m.byte := by
  induction len generalizing str m out with
  | zero => exact ⟨rfl, fun i hi => Or.inl hi, (List.append_nil out).symm⟩
  | succ len ih =>
      obtain ⟨hbyte, hused, hout⟩ :=
        ih (str + 1) { m with used := str :: m.used } (out ++ [m.byte str])
      refine ⟨hbyte, fun i hi => ?_, ?_⟩
      · rcases hused i hi with hold | hspan
        · rcases List.mem_cons.mp hold with rfl | hold
          · exact Or.inr ⟨le_rfl, by omega⟩
          · exact Or.inl hold
        · exact Or.inr ⟨by omega, by omega⟩
      · rw [doPuts, hout, List.append_assoc]
        congr 1
        simp only [ByteRam.span, List.range_succ_eq_map, List.map_cons, List.map_map, Nat.add_zero,
          List.singleton_append, List.cons.injEq, true_and]
        refine List.map_congr_left fun i _ => ?_
        simp only [Function.comp_apply]
        congr 1
        omega

/-- After `done` has been put: what was passed on, and then what waits in the buffer, are its
bytes. -/
structure Cprintf.Collects (done : List Int) (s : PrintBuf × List (BitVec 8)) : Prop where
  stream : s.2 ++ (ByteRam.span 0 s.1.idx).map s.1.buf.byte = done.map lowByte
  idx_lt : s.1.idx < 255
  cnt_eq : s.1.cnt = wrap32 done.length
  used_lt : ∀ i ∈ s.1.buf.used, i < 255

theorem span_succ (n : Nat) : ByteRam.span 0 (n + 1) = ByteRam.span 0 n ++ [n] := by
  rw [ByteRam.span, ByteRam.span, List.range_succ, List.map_append, List.map_singleton,
    Nat.zero_add]

theorem Cprintf.Collects.putch {s : PrintBuf × List (BitVec 8)} (h : Cprintf.Collects done s)
    (ch : Int) : Cprintf.Collects (done ++ [ch]) (Cprintf.putch s ch) := by
  obtain ⟨⟨idx, cnt, buf⟩, out⟩ := s
  obtain ⟨hstream, hidx, hcnt, hused⟩ := h
  dsimp only at hstream hidx hcnt hused
  obtain ⟨buf', hbuf'⟩ : ∃ buf', buf' = buf.stos 1 (lowByte ch).toNat idx := ⟨_, rfl⟩
  -- the bytes below the index are as they were
  have hbytes : (ByteRam.span 0 (idx + 1)).map buf'.byte =
      (ByteRam.span 0 idx).map buf.byte ++ [lowByte ch] := by
    rw [span_succ, List.map_append, List.map_singleton]
    congr 1
    · refine List.map_congr_left fun i hi => ?_
      have := ByteRam.mem_span.mp hi
      rw [hbuf', ByteRam.stos_byte, if_neg (by omega)]
    · rw [hbuf', ByteRam.stos_byte, if_pos (by omega), Nat.sub_self]
      congr 1
      exact (BitVec.ofNat_toNat 8 (lowByte ch)).trans (BitVec.setWidth_eq _)
  have hused' : ∀ i ∈ buf'.used, i < 255 := by
    intro i hi
    rw [hbuf'] at hi
    rcases List.mem_append.mp hi with hspan | hold
    · have := ByteRam.mem_span.mp hspan
      omega
    · exact hused i hold
  have hall : out ++ (ByteRam.span 0 (idx + 1)).map buf'.byte = (done ++ [ch]).map lowByte := by
    rw [hbytes, ← List.append_assoc, hstream, List.map_append, List.map_singleton]
  have hcount : wrap32 (cnt + 1) = wrap32 (done ++ [ch]).length := by
    rw [hcnt, wrap32_wrap32_add, List.length_append]
    rfl
  rw [Cprintf.putch]
  dsimp only
  rw [← hbuf']
  split
  · rename_i hfull
    obtain ⟨hbyte, hputs, hout⟩ := doPuts_eq 0 (idx + 1) buf' out
    refine ⟨?_, (by decide : 0 < 255), hcount, fun i hi => ?_⟩
    · dsimp only
      rw [hout, hall]
      exact List.append_nil _
    · rcases hputs i hi with hold | hspan
      · exact hused' i hold
      · omega
  · rename_i hroom
    exact ⟨hall, by dsimp only; omega, hcount, hused'⟩

theorem collects_foldl {s : PrintBuf × List (BitVec 8)} (h : Cprintf.Collects done s)
    (t : List Int) : Cprintf.Collects (done ++ t) (t.foldl Cprintf.putch s) := by
  induction t generalizing done s with
  | nil =>
      rw [List.append_nil]
      exact h
  | cons ch t ih =>
      have := ih (h.putch ch)
      rw [List.append_assoc] at this
      exact this

/-- The last `puts` passes on what waits. -/
theorem vcprintf_eq (fuel : Nat) (f : List (BitVec 8)) (ap : List Arg) (garbage : Nat → BitVec 8) :
    (vcprintf fuel f ap garbage).map (fun r => (r.1, r.2.1)) = vprintk fuel f ap ∧
      ∀ r, vcprintf fuel f ap garbage = .ok r → ∀ i ∈ r.2.2.used, i ≤ 254 := by
  rw [vprintk_eq, vcprintf]
  cases vprintfmt fuel f ap with
  | error e => exact ⟨rfl, fun r hr => by cases hr⟩
  | ok t =>
      have hstart : Cprintf.Collects [] (⟨0, 0, ⟨garbage, []⟩⟩, []) :=
        ⟨rfl, (by decide : 0 < 255), (by decide : 0 = wrap32 0), fun i hi => absurd hi List.not_mem_nil⟩
      obtain ⟨hstream, hidx, hcnt, hused⟩ := collects_foldl hstart t
      rw [ok_bind]
      generalize t.foldl Cprintf.putch (⟨0, 0, ⟨garbage, []⟩⟩, []) = s at *
      obtain ⟨-, hputs, hout⟩ := doPuts_eq 0 s.1.idx s.1.buf s.2
      constructor
      · change Except.ok (s.1.cnt, (doPuts 0 s.1.idx s.1.buf s.2).2) =
          Except.ok (wrap32 t.length, t.map lowByte)
        rw [hout, hstream, hcnt]
        rfl
      · intro r hr
        cases hr
        intro i hi
        rcases hputs i hi with hold | hspan
        · have := hused i hold
          omega
        · omega

end Printing

/-- For every format and argument list, and however far it gets, `cprintf` passes to `k_putch` what
`printk` passes to it, returns the same, and keeps to the first 255 bytes of its buffer.  What is
returned is the length of the output as an `int`; and with arguments that match the format there is
one. -/
theorem vcprintf_same_as_vprintk (f : List (BitVec 8)) (ap : List Arg)
    (garbage : Nat → BitVec 8) :
    (∀ fuel, (vcprintf fuel f ap garbage).map (fun r => (r.1, r.2.1)) = vprintk fuel f ap) ∧
    (∀ fuel r, vcprintf fuel f ap garbage = .ok r → ∀ i ∈ r.2.2.used, i ≤ 254) ∧
    (∀ fuel, vprintk fuel f ap =
      (vprintfmt fuel f ap).map fun t => (wrap32 t.length, t.map lowByte)) ∧
    (0 ∉ f → Matching f ap → ∃ t, Emits f ap t ∧
      Settles (fun fuel => vprintk fuel f ap) (.ok (wrap32 t.length, t.map lowByte)) ∧
      (t.length < 2 ^ 31 → wrap32 t.length = t.length)) := by
  refine ⟨fun fuel => (vcprintf_eq fuel f ap garbage).1,
    fun fuel => (vcprintf_eq fuel f ap garbage).2, fun fuel => vprintk_eq fuel f ap,
    fun hnul hap => ?_⟩
  obtain ⟨outs, houts⟩ := outputs_ok ap hap
  have ht : Emits f ap outs.flatten := vprintfmt_settles hnul houts
  exact ⟨outs.flatten, ht, vprintk_settles ht,
    fun hlen => wrap32_of_mem (by omega) (by omega)⟩

/-- The number 7 in 300 columns, behind a text. -/
def wideText : List Int :=
  echo (bytesOf "tick ") ++ (List.replicate 299 (charInt ' ') ++ [charInt '7'])

theorem wideText_emitted : Emits (bytesOf "tick %300d") [.int 7] wideText := by
  have hformat : bytesOf "tick %300d" = bytesOf "tick " ++ signedDirective .space 300 (.int 7) := by
    decide
  rw [hformat]
  exact emits_digit (by decide) (by decide) (by decide) rfl (by decide)

theorem wideText_bytes :
    wrap32 wideText.length = 305 ∧
      wideText.map lowByte = bytesOf "tick " ++ (List.replicate 299 (ascii ' ') ++ [ascii '7']) := by
  rw [wideText, List.length_append, List.length_append, List.length_replicate, List.map_append,
    List.map_append, List.map_replicate]
  exact ⟨by decide, rfl⟩

/-- A text of more than 255 characters, for which `cprintf` calls `puts` twice. -/
theorem vcprintf_same_as_vprintk_tick :
    Settles (fun fuel => (vcprintf fuel (bytesOf "tick %300d") [.int 7] fun _ => 0).map
        fun r => (r.1, r.2.1))
      (.ok (305, bytesOf "tick " ++ (List.replicate 299 (ascii ' ') ++ [ascii '7']))) := by
  obtain ⟨hsame, -, -, hsettles⟩ :=
    vcprintf_same_as_vprintk (bytesOf "tick %300d") [.int 7] fun _ => 0
  obtain ⟨t, ht, hprintk, -⟩ := hsettles (by decide) (by decide)
  rw [ht.unique wideText_emitted, wideText_bytes.1, wideText_bytes.2] at hprintk
  simp only [hsame]
  exact hprintk

/-- Neither can count 2^31 characters. -/
theorem vprintk_count_wraps :
    Emits (bytesOf "x%2147483647d") [.int 1] longText ∧ longText.length = 2147483648 ∧
      Settles (fun fuel => vprintk fuel (bytesOf "x%2147483647d") [.int 1])
        (.ok (-2147483648, longText.map lowByte)) ∧
      Settles (fun fuel => (vcprintf fuel (bytesOf "x%2147483647d") [.int 1] fun _ => 0).map
        fun r => (r.1, r.2.1)) (.ok (-2147483648, longText.map lowByte)) := by
  have hprintk : Settles (fun fuel => vprintk fuel (bytesOf "x%2147483647d") [.int 1])
      (.ok (-2147483648, longText.map lowByte)) := by
    have h := vprintk_settles longText_emitted
    rw [longText_length] at h
    exact h
  refine ⟨longText_emitted, longText_length, hprintk, ?_⟩
  obtain ⟨k, hk⟩ := hprintk
  exact ⟨k, fun fuel hfuel => (vcprintf_eq fuel _ _ _).1.trans (hk fuel hfuel)⟩

end Nctuos
