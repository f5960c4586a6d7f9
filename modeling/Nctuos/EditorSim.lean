import Nctuos.LineEditor
import Mathlib.Data.List.Forall2

/-!
# The shell is a line editor

The variables of `readline` and `shell` stand for an editor: the buffer holds the line, the flags
hold the completion, and the ring of ten rows holds the nine most recent lines and an empty one.
`shellKey_refines` says that the code does to its arrays what a key does to the editor, that it
does it without a fault, and what it prints.  What is said about the code afterwards is said about
the editor first.
-/

namespace Nctuos

open Lib

/-! ## What stands for what -/

/-- A row of the history holds a string. -/
def Holds (hist : CArray (CArray (BitVec 8) 1024) 10) (r : Nat) (t : List (BitVec 8)) : Prop :=
  ∃ row, hist.get? r = some row ∧ row.At 0 (t ++ [0])

/-- The rows are used in turn, and the nine most recent lines are there; the next row is empty. -/
structure HistRing (hist : CArray (CArray (BitVec 8) 1024) 10) (head tail curr : Nat)
    (lines : List TextLine) (pos : Nat) : Prop where
  tail_eq : tail = lines.length % 10
  head_eq : head = (lines.length - min lines.length 9) % 10
  curr_eq : curr = (lines.length - pos) % 10
  row : ∀ j (hj : j < lines.length), lines.length ≤ j + 9 → Holds hist (j % 10) lines[j].text
  blank : Holds hist (lines.length % 10) []
  unused : ∀ r, r < 10 → lines.length ≤ r → Holds hist r []
  terminated : ∀ r, r < 10 → ∃ t, Holds hist r t

structure LineRepr (s : ReadState) (e : Editor) : Prop where
  at_line : s.buf.At 0 e.line.text
  i_eq : s.i = e.line.text.length
  found : s.isFound = e.pending.isSome
  tab : s.isFound = true → s.isTab = true
  idx : ∀ k, e.pending = some k → s.tabIdx = k

/-- The variables stand for the editor. -/
structure ReadRepr (s : ReadState) (e : Editor) : Prop where
  line : LineRepr s e
  ring : HistRing s.hist s.histHead s.histTail s.histCurr e.lines e.pos

/-! ## The ring -/

section Ring

variable {hist : CArray (CArray (BitVec 8) 1024) 10} {head tail curr pos : Nat}
  {lines : List TextLine}

section HistRing

variable (h : HistRing hist head tail curr lines pos) (hpos : pos ≤ min lines.length 9)

include h hpos

theorem HistRing.up :
    HistRing hist head tail
      (if curr ≠ head then if curr = 0 then 10 - 1 else curr - 1 else curr) lines
      (min (pos + 1) (min lines.length 9)) := by
  refine { h with curr_eq := ?_ }
  rw [h.curr_eq, h.head_eq]
  split
  · split <;> omega
  · omega

theorem HistRing.down :
    HistRing hist head tail
      (if curr ≠ tail then if curr = 10 - 1 then 0 else curr + 1 else curr) lines (pos - 1) := by
  refine { h with curr_eq := ?_ }
  rw [h.curr_eq, h.tail_eq]
  split
  · split <;> omega
  · omega

/-- The current row holds the line that is as far back as it is said. -/
theorem HistRing.holds_recent : Holds hist curr (recent lines pos).text := by
  rw [h.curr_eq]
  cases pos with
  | zero => exact h.blank
  | succ p =>
      have hp : p < lines.length := by omega
      have hrecent : recent lines (p + 1) = lines[lines.length - (p + 1)] := by
        rw [recent, List.getElem?_reverse hp, Nat.sub_right_comm, Nat.sub_sub,
          List.getElem?_eq_getElem (by omega), Option.getD_some]
      rw [hrecent]
      exact h.row _ (by omega) (by omega)

end HistRing

/-- A line in the row that was empty, and an empty row behind it. -/
theorem HistRing.saved {hist' : CArray (CArray (BitVec 8) 1024) 10} {l : TextLine}
    (h : HistRing hist head tail curr lines pos) (hline : Holds hist' (lines.length % 10) l.text)
    (hblank : Holds hist' ((lines.length + 1) % 10) [])
    (hrest : ∀ r t, r ≠ lines.length % 10 → r ≠ (lines.length + 1) % 10 → Holds hist r t →
      Holds hist' r t) :
    HistRing hist' ((lines.length + 1 - min (lines.length + 1) 9) % 10) ((lines.length + 1) % 10)
      ((lines.length + 1) % 10) (lines ++ [l]) 0 := by
  have hlen : (lines ++ [l]).length = lines.length + 1 := by
    rw [List.length_append, List.length_singleton]
  refine ⟨by rw [hlen], by rw [hlen], by rw [hlen, Nat.sub_zero], ?_, by rwa [hlen], ?_, ?_⟩
  · intro j hj hrecent
    rw [hlen] at hj hrecent
    by_cases hlast : j = lines.length
    · subst hlast
      rw [List.getElem_concat_length rfl]
      exact hline
    · have hj' : j < lines.length := by omega
      rw [List.getElem_append_left hj']
      exact hrest _ _ (by omega) (by omega) (h.row j hj' (by omega))
  · intro r hr hge
    rw [hlen] at hge
    by_cases hnext : r = (lines.length + 1) % 10
    · exact hnext ▸ hblank
    · exact hrest r [] (by omega) hnext (h.unused r hr (by omega))
  · intro r hr
    by_cases hlast : r = lines.length % 10
    · exact ⟨_, hlast ▸ hline⟩
    · by_cases hnext : r = (lines.length + 1) % 10
      · exact ⟨_, hnext ▸ hblank⟩
      · obtain ⟨t, ht⟩ := h.terminated r hr
        exact ⟨t, hrest r t hlast hnext ht⟩

section Store

variable {hist' : CArray (CArray (BitVec 8) 1024) 10} {row : CArray (BitVec 8) 1024} {r q : Nat}
  {t : List (BitVec 8)} (hget : ∀ j, hist'.get? j = if j = r then some row else hist.get? j)

include hget

theorem holds_store (hrow : row.At 0 (t ++ [0])) : Holds hist' r t :=
  ⟨row, (hget r).trans (if_pos rfl), hrow⟩

theorem Holds.store (h : Holds hist q t) (hne : q ≠ r) : Holds hist' q t := by
  obtain ⟨row', hrow', hat⟩ := h
  exact ⟨row', (hget q).trans ((if_neg hne).trans hrow'), hat⟩

end Store

end Ring

/-- The shell saves a line. -/
theorem saveLine_ok {s : ReadState} {lines : List TextLine} {pos : Nat} {l : TextLine}
    (h : HistRing s.hist s.histHead s.histTail s.histCurr lines pos)
    (hl : s.buf.At 0 (l.text ++ [0])) :
    ∃ s', saveLine s = .ok s' ∧ s'.buf = s.buf ∧ s'.isFound = s.isFound ∧
      HistRing s'.hist s'.histHead s'.histTail s'.histCurr (lines ++ [l]) 0 := by
  have htail : s.histTail < 10 := by
    rw [h.tail_eq]
    omega
  have hshort := l.short
  have hread : ReadsAs (ptr s.buf 0) 0 l.text := readsAs_ptr hl l.not_nul
  obtain ⟨row, hcopy, hrow, -⟩ := strcpyFrom_ok hread l.lt_strFuel (by omega)
    (s.hist.cell ⟨s.histTail, htail⟩)
  obtain ⟨hist₁, hstore₁, hget₁⟩ := storeAt_ok s.hist row htail
  have hline : Holds hist₁ (lines.length % 10) l.text := h.tail_eq ▸ holds_store hget₁ hrow
  rw [saveLine, loadAt_of_get? (CArray.get?_of_lt htail), ok_bind, strcpy, hcopy, ok_bind, hstore₁,
    ok_bind]
  have hnext : (s.histTail + 1) % 10 = (lines.length + 1) % 10 := by
    rw [h.tail_eq]
    omega
  rw [hnext]
  by_cases hfull : s.histHead = (lines.length + 1) % 10
  · -- the row of the oldest line becomes the empty one
    have hk : 9 ≤ lines.length := by
      rw [h.head_eq] at hfull
      omega
    have hlt : (lines.length + 1) % 10 < 10 := Nat.mod_lt _ (by omega)
    obtain ⟨row₂, hstore₂, hget₂⟩ :=
      storeAt_ok (hist₁.cell ⟨(lines.length + 1) % 10, hlt⟩) 0 (by omega : 0 < 1024)
    obtain ⟨hist₃, hstore₃, hget₃⟩ := storeAt_ok hist₁ row₂ hlt
    rw [if_pos hfull, loadAt_of_get? (CArray.get?_of_lt hlt), ok_bind, hstore₂, ok_bind, hstore₃,
      ok_bind]
    refine ⟨_, rfl, rfl, rfl, ?_⟩
    have hhead : (s.histHead + 1) % 10 = (lines.length + 1 - min (lines.length + 1) 9) % 10 := by
      rw [hfull]
      omega
    dsimp only
    rw [hhead]
    refine h.saved (hline.store hget₃ (by omega)) (holds_store hget₃ ⟨?_, trivial⟩) ?_
    · rw [hget₂, if_pos rfl]
    · intro r t hr hr' ht
      exact (ht.store hget₁ (by rwa [h.tail_eq])).store hget₃ hr'
  · -- before the ring is full the next row has not been written
    have hk : lines.length < 9 := by
      rw [h.head_eq] at hfull
      omega
    rw [if_neg hfull]
    refine ⟨_, rfl, rfl, rfl, ?_⟩
    have hhead : s.histHead = (lines.length + 1 - min (lines.length + 1) 9) % 10 := by
      rw [h.head_eq]
      omega
    dsimp only
    rw [hhead]
    refine h.saved hline ?_ fun r t hr _ ht => ht.store hget₁ (by rwa [h.tail_eq])
    exact (h.unused _ (Nat.mod_lt _ (by omega)) (by omega)).store hget₁ (by rw [h.tail_eq]; omega)

/-! ## The keys -/

section Keys

variable {s : ReadState} {e : Editor} {prompt : List (BitVec 8)} {c : Int}

theorem lineRepr_of_none (hp : e.pending = none) (hat : s.buf.At 0 e.line.text)
    (hi : s.i = e.line.text.length) (hfound : s.isFound = false) : LineRepr s e where
  at_line := hat
  i_eq := hi
  found := by rw [hp, hfound]; rfl
  tab := fun h => absurd (hfound.symm.trans h) Bool.false_ne_true
  idx := fun _ h => absurd (hp.symm.trans h) (Option.some_ne_none _).symm

theorem lineRepr_withLine {l : TextLine} (hat : s.buf.At 0 l.text) (hi : s.i = l.text.length)
    (hfound : s.isFound = false) : LineRepr s (e.withLine l) :=
  lineRepr_of_none rfl hat hi hfound

theorem fillFound_ok (h : ReadRepr s e) (hc : c ≠ charInt '\t') :
    ∃ s', fillFound c s = .ok s' ∧ ReadRepr s' (e.withLine e.committed) ∧ s'.echo = s.echo := by
  have hfound := h.line.found
  cases hp : e.pending with
  | none =>
      rw [hp] at hfound
      have hcond : ¬ (s.isTab ∧ s.isFound ∧ c ≠ charInt '\t') := fun hcond =>
        absurd (hfound.symm.trans hcond.2.1) Bool.false_ne_true
      refine ⟨s, if_neg hcond, ⟨?_, h.ring⟩, rfl⟩
      rw [e.committed_of_none hp]
      exact lineRepr_withLine h.line.at_line h.line.i_eq hfound
  | some k =>
      rw [hp] at hfound
      obtain ⟨name, hname, -⟩ := e.shows k hp
      have htext := completion_text hname
      have hnul : 0 ∉ name := htext ▸ (completion k).not_nul
      have hfuel : name.length < strFuel := htext ▸ (completion k).lt_strFuel
      have hread : ReadsAs (literal name) 0 name := readsAs_literal [] hnul
      obtain ⟨buf, hcopy, hat, -⟩ := strcpyFrom_ok hread hfuel
        (by have := (completion k).short; rw [htext] at this; omega) s.buf
      have hlen : strlen (ptr buf 0) = .ok name.length := by
        rw [strlen, strlenFrom_ok (readsAs_ptr hat hnul) hfuel, Nat.zero_add]
      refine ⟨{ s with buf := buf, i := name.length, tabIdx := 0, isTab := false, isFound := false },
        ?_, ⟨?_, h.ring⟩, rfl⟩
      · rw [fillFound, if_pos ⟨h.line.tab hfound, hfound, hc⟩, h.line.idx k hp, commandName_ok hname,
          ok_bind, strcpy, hcopy, ok_bind, hlen]
        rfl
      · rw [e.committed_of_some hp]
        refine lineRepr_withLine ?_ ?_ rfl
        · rw [htext]
          exact (CArray.at_concat.mp hat).1
        · rw [htext]

/-- The row of the history takes the place of the line. -/
theorem recallRow_ok {l l' : TextLine} (hi : s.i = l.text.length)
    (hrow : Holds s.hist s.histCurr l'.text) :
    ∃ buf, buf.At 0 l'.text ∧ recallRow s = .ok { s with
      buf := buf
      i := l'.text.length
      echo := s.echo ++ (echoBack l.text.length ++ echoText l'.text) } := by
  obtain ⟨row, hget, hat⟩ := hrow
  have hshort := l.short
  have hshort' := l'.short
  obtain ⟨buf, hrecall, hbuf, -⟩ :=
    @recallFrom_ok l'.text s.buf row 1025 0 hat l'.not_nul (by omega)
  refine ⟨buf, hbuf, ?_⟩
  rw [recallRow]
  dsimp only [ReadState.print]
  rw [loadAt_of_get? hget, ok_bind, hrecall, ok_bind, hi, asCount_natCast (by omega), Nat.zero_add,
    List.append_assoc]

/-! ### The tab -/

theorem staleLength_ok (h : ReadRepr s e) :
    staleLength s = .ok (e.committed.text.length - e.line.text.length) := by
  cases hp : e.pending with
  | none =>
      have hfound : s.isFound = false := by rw [h.line.found, hp]; rfl
      rw [staleLength, if_neg (by rw [hfound]; exact Bool.false_ne_true), e.committed_of_none hp,
        Nat.sub_self]
  | some k =>
      have hfound : s.isFound = true := by rw [h.line.found, hp]; rfl
      obtain ⟨name, hname, -⟩ := e.shows k hp
      have htext := completion_text hname
      have hnul : 0 ∉ name := htext ▸ (completion k).not_nul
      have hfuel : name.length < strFuel := htext ▸ (completion k).lt_strFuel
      have hread : ReadsAs (literal name) 0 name := readsAs_literal [] hnul
      rw [staleLength, if_pos hfound, h.line.idx k hp, commandName_ok hname, ok_bind, strlen,
        strlenFrom_ok hread hfuel, ok_bind, h.line.i_eq, e.committed_of_some hp, htext]
      congr 1
      omega

/-- The search goes on behind the completion that is shown. -/
theorem searchFrom_next (h : ReadRepr s e) :
    searchFrom s.buf s.i (commandNames.drop (if s.isFound then s.tabIdx + 1 else 0))
      (if s.isFound then s.tabIdx + 1 else 0) = .ok e.next := by
  have hshort := e.line.short
  have hstart : (if s.isFound then s.tabIdx + 1 else 0) = e.pending.elim 0 (· + 1) := by
    have hfound := h.line.found
    cases hp : e.pending with
    | none =>
        rw [hp] at hfound
        rw [hfound]
        rfl
    | some k =>
        rw [hp] at hfound
        rw [hfound, h.line.idx k hp]
        rfl
  rw [hstart, h.line.i_eq, searchFrom_ok h.line.at_line e.line.not_nul (by omega)
    fun name hname => commandNames_nul name (List.mem_of_mem_drop hname), e.next_eq]

/-- What is printed of the name. -/
theorem nameFrom_ok {name : List (BitVec 8)} {k : Nat} (hname : commandNames[k]? = some name)
    (hpre : e.line.text <+: name) :
    nameFrom (literal name) e.line.text.length = .ok (name.drop e.line.text.length) := by
  obtain ⟨rest, rfl⟩ := hpre
  have hnul : 0 ∉ rest := fun h0 =>
    commandNames_nul _ (List.mem_of_getElem? hname) (List.mem_append_right _ h0)
  have hfuel := (completion k).lt_strFuel
  rw [completion_text hname, List.length_append] at hfuel
  rw [nameFrom, if_neg (by omega), Int.toNat_natCast,
    strReadFrom_ok (readsAs_literal e.line.text hnul) (by omega), List.drop_left]

theorem complete_ok (h : ReadRepr s e) :
    ∃ s', complete s = .ok s' ∧ ReadRepr s' (e.step .tab) ∧
      s'.echo = s.echo ++ e.echo prompt .tab := by
  rw [complete, staleLength_ok h, ok_bind]
  dsimp only [ReadState.print]
  rw [searchFrom_next h, ok_bind]
  cases hnext : e.next with
  | none =>
      have hcommitted : (e.step .tab).committed = e.line := Editor.committed_of_none hnext
      refine ⟨_, rfl, ⟨⟨h.line.at_line, h.line.i_eq, ?_, ?_, ?_⟩, h.ring⟩, ?_⟩
      · exact (congrArg Option.isSome hnext).symm
      · exact fun hfound => absurd hfound Bool.false_ne_true
      · exact fun k hk => absurd (hnext.symm.trans hk) (Option.some_ne_none k).symm
      · rw [Editor.echo, hcommitted, List.drop_length]
        exact congrArg (s.echo ++ ·) (List.append_nil _).symm
  | some k =>
      obtain ⟨name, hname, hpre⟩ := Editor.next_shows hnext
      have hcommitted : (e.step .tab).committed = completion k := Editor.committed_of_some hnext
      dsimp only
      rw [commandName_ok hname, ok_bind, h.line.i_eq, nameFrom_ok hname hpre, ok_bind]
      refine ⟨_, rfl, ⟨⟨h.line.at_line, rfl, ?_, fun _ => rfl, ?_⟩, h.ring⟩, ?_⟩
      · exact (congrArg Option.isSome hnext).symm
      · exact fun k' hk' => Option.some.inj (hnext.symm.trans hk')
      · rw [Editor.echo, hcommitted, completion_text hname]
        exact List.append_assoc _ _ _

/-! ### The other keys -/

/-- The key does to the variables what it does to the editor, and `readline` waits for another. -/
def AwaitsNext (prompt : List (BitVec 8)) (c : Int) (s : ReadState) (e : Editor) (k : Key) : Prop :=
  ∃ s', handleKey (some prompt) c s = .ok (.waits, s') ∧ ReadRepr s' (e.step k) ∧
    s'.echo = s.echo ++ e.echo prompt k

theorem charInt_space : charInt ' ' = 0x20 := rfl

theorem charInt_newline : charInt '\n' = 10 := rfl

theorem charInt_return : charInt '\r' = 13 := rfl

theorem charInt_tab : charInt '\t' = 9 := rfl

/-- A key that no branch of `handleKey` is for. -/
theorem handleKey_ignored (herase : ¬ ((c = 8 ∨ c = 0x7f) ∧ 0 < s.i))
    (hchar : ¬ (0x20 ≤ c ∧ c ≤ 0x7E ∧ s.i < 1024 - 1)) (hpos : 0 ≤ c) (henter : ¬ (c = 10 ∨ c = 13))
    (hredraw : c ≠ 0xc) (htab : c ≠ 9) (hhist : c ≠ 0xE2 ∧ c ≠ 0xE3) :
    handleKey (some prompt) c s = .ok (.waits, s) := by
  rw [handleKey, charInt_space, charInt_newline, charInt_return, charInt_tab,
    if_neg (Int.not_lt.mpr hpos), if_neg herase, if_neg hchar, if_neg henter, if_neg hredraw,
    if_neg htab, if_neg hhist.1, if_neg hhist.2]
  exact ite_self _

theorem handleKey_tab (h : ReadRepr s e) : AwaitsNext prompt 9 s e .tab := by
  obtain ⟨s', hs', hrepr, hecho⟩ := @complete_ok s e prompt h
  refine ⟨s', ?_, hrepr, hecho⟩
  rw [handleKey, charInt_space, charInt_newline, charInt_return, charInt_tab, if_neg (by omega),
    if_neg (by omega), if_neg (by omega), if_neg (by omega), if_neg (by omega), if_pos rfl, hs']
  rfl

section Settled

variable (h : ReadRepr s e) (hp : e.pending = none)

include h hp

theorem isFound_of_none : s.isFound = false := by
  rw [h.line.found, hp]
  rfl

/-- A key that does nothing. -/
theorem readRepr_same : ReadRepr s (e.withLine e.committed) := by
  refine ⟨?_, h.ring⟩
  rw [e.committed_of_none hp]
  exact lineRepr_withLine h.line.at_line h.line.i_eq (isFound_of_none h hp)

theorem handleKey_erase (hc : c = 8 ∨ c = 0x7f) : AwaitsNext prompt c s e .erase := by
  have hline : e.committed = e.line := e.committed_of_none hp
  have hi := h.line.i_eq
  have hfound := isFound_of_none h hp
  rw [AwaitsNext, Editor.echo, hline]
  by_cases hpos : 0 < s.i
  · rw [handleKey, if_neg (by omega), if_pos ⟨hc, hpos⟩, Nat.min_eq_left (by omega)]
    refine ⟨_, rfl, ⟨lineRepr_withLine ?_ ?_ hfound, h.ring⟩, rfl⟩
    · rw [hline]
      have hne : e.line.text ≠ [] := fun hnil => by
        rw [hi, hnil] at hpos
        exact absurd hpos (by decide)
      have hat := h.line.at_line
      rw [← List.dropLast_append_getLast hne] at hat
      exact (CArray.at_concat.mp hat).1
    · change s.i - 1 = e.committed.text.dropLast.length
      rw [hline, List.length_dropLast, hi]
      omega
  · have hnil : e.line.text = [] := List.eq_nil_of_length_eq_zero (by omega)
    have hsame := @handleKey_ignored s prompt c (fun hcond => hpos hcond.2) (by omega) (by omega)
      (by omega) (by omega) (by omega) (by omega)
    refine ⟨s, hsame, ⟨lineRepr_withLine ?_ ?_ hfound, h.ring⟩, ?_⟩
    · change s.buf.At 0 e.committed.text.dropLast
      rw [hline, hnil]
      trivial
    · change s.i = e.committed.text.dropLast.length
      rw [hline, hi, hnil]
      rfl
    · rw [hnil]
      exact (List.append_nil _).symm

theorem handleKey_char (hc : 0x20 ≤ c ∧ c ≤ 0x7E) (hch : Printable (lowByte c)) :
    AwaitsNext prompt c s e (.char (lowByte c) hch) := by
  have hline : e.committed = e.line := e.committed_of_none hp
  have hi := h.line.i_eq
  have hfound := isFound_of_none h hp
  have hshort := e.line.short
  rw [AwaitsNext, Editor.echo, hline]
  by_cases hroom : e.line.text.length < 1023
  · obtain ⟨buf, hstore, hget⟩ := storeAt_ok s.buf (lowByte c) (by omega : e.line.text.length < 1024)
    have htext : (e.committed.add (lowByte c) hch).text = e.line.text ++ [lowByte c] := by
      rw [hline, TextLine.add, dif_pos hroom]
    rw [handleKey, charInt_space, if_neg (by omega), if_neg (by omega),
      if_pos ⟨hc.1, hc.2, by omega⟩, if_pos hroom, hi, hstore, ok_bind]
    refine ⟨_, rfl, ⟨lineRepr_withLine ?_ ?_ hfound, h.ring⟩, rfl⟩
    · rw [htext]
      refine CArray.at_concat.mpr ⟨h.line.at_line.congr fun j _ hj => ?_, ?_⟩
      · rw [hget, if_neg (by omega)]
      · rw [Nat.zero_add, hget, if_pos rfl]
    · rw [htext, List.length_append, List.length_singleton]
      rfl
  · have hsame : e.committed.add (lowByte c) hch = e.committed := by
      rw [hline, TextLine.add, dif_neg hroom]
    have hkey := @handleKey_ignored s prompt c (by omega) (fun hcond => hroom (by omega)) (by omega)
      (by omega) (by omega) (by omega) (by omega)
    rw [if_neg hroom]
    refine ⟨s, hkey, ?_, (List.append_nil _).symm⟩
    rw [Editor.step, hsame]
    exact readRepr_same h hp

theorem handleKey_redraw : AwaitsNext prompt 0xc s e .redraw := by
  have hfound := isFound_of_none h hp
  rw [AwaitsNext, handleKey, charInt_space, charInt_newline, charInt_return, charInt_tab,
    if_neg (by omega), if_neg (by omega), if_neg (by omega), if_neg (by omega), if_pos rfl]
  refine ⟨_, rfl, ⟨lineRepr_withLine ?_ ?_ hfound, h.ring⟩, rfl⟩
  · rw [e.committed_of_none hp]
    exact h.line.at_line
  · rw [e.committed_of_none hp]
    exact h.line.i_eq

theorem handleKey_up : AwaitsNext prompt 0xE2 s e .up := by
  have hfound := isFound_of_none h hp
  have hring := h.ring.up e.pos_le
  obtain ⟨buf, hbuf, hrecall⟩ := recallRow_ok (s := { s with histCurr :=
    if s.histCurr ≠ s.histHead then if s.histCurr = 0 then 10 - 1 else s.histCurr - 1
    else s.histCurr }) h.line.i_eq (hring.holds_recent (Nat.min_le_right _ _))
  rw [AwaitsNext, handleKey, charInt_space, charInt_newline, charInt_return, charInt_tab,
    if_neg (by omega), if_neg (by omega), if_neg (by omega), if_neg (by omega), if_neg (by omega),
    if_neg (by omega), if_pos (by omega), if_pos rfl, histUp, hrecall, ok_bind, Editor.echo,
    e.committed_of_none hp]
  exact ⟨_, rfl, ⟨lineRepr_of_none rfl hbuf rfl hfound, hring⟩, rfl⟩

theorem handleKey_down : AwaitsNext prompt 0xE3 s e .down := by
  have hfound := isFound_of_none h hp
  have hring := h.ring.down e.pos_le
  obtain ⟨buf, hbuf, hrecall⟩ := recallRow_ok (s := { s with histCurr :=
    if s.histCurr ≠ s.histTail then if s.histCurr = 10 - 1 then 0 else s.histCurr + 1
    else s.histCurr }) h.line.i_eq (hring.holds_recent ((Nat.sub_le _ _).trans e.pos_le))
  rw [AwaitsNext, handleKey, charInt_space, charInt_newline, charInt_return, charInt_tab,
    if_neg (by omega), if_neg (by omega), if_neg (by omega), if_neg (by omega), if_neg (by omega),
    if_neg (by omega), if_pos (by omega), if_neg (by omega), if_pos rfl, histDn, hrecall, ok_bind,
    Editor.echo, e.committed_of_none hp]
  exact ⟨_, rfl, ⟨lineRepr_of_none rfl hbuf rfl hfound, hring⟩, rfl⟩

/-- The keys that do not end the call of `readline` and are no tab. -/
theorem handleKey_settled (hc : 0 ≤ c ∧ c ≠ 10 ∧ c ≠ 13 ∧ c ≠ 9) :
    AwaitsNext prompt c s e (keyOf c) := by
  rw [keyOf, if_neg (by omega)]
  split
  · rename_i herase
    exact handleKey_erase h hp herase
  split
  · rename_i hchar
    exact handleKey_char h hp hchar _
  rw [if_neg (by omega)]
  split
  · rename_i hredraw
    exact hredraw ▸ handleKey_redraw h hp
  rw [if_neg (by omega)]
  split
  · rename_i hup
    exact hup ▸ handleKey_up h hp
  split
  · rename_i hdown
    exact hdown ▸ handleKey_down h hp
  rename_i herase hchar hredraw hup hdown
  have hkey := @handleKey_ignored s prompt c (fun hcond => herase hcond.1)
    (fun hcond => hchar ⟨hcond.1, hcond.2.1⟩) hc.1 (by omega) hredraw hc.2.2.2 ⟨hup, hdown⟩
  exact ⟨s, hkey, readRepr_same h hp, (List.append_nil _).symm⟩

/-- The line is terminated and returned. -/
theorem handleKey_enter (hc : c = 10 ∨ c = 13) :
    ∃ s', handleKey (some prompt) c s = .ok (.line, s') ∧ s'.buf.At 0 (e.line.text ++ [0]) ∧
      s'.isFound = false ∧
      HistRing s'.hist s'.histHead s'.histTail s'.histCurr e.lines e.pos := by
  have hshort := e.line.short
  have hfound := isFound_of_none h hp
  obtain ⟨buf, hstore, hget⟩ := storeAt_ok s.buf 0 (by omega : e.line.text.length < 1024)
  refine ⟨{ s.print (echoText (bytesOf "\n")) with buf := buf }, ?_, ?_, hfound, h.ring⟩
  · rw [handleKey, charInt_space, charInt_newline, charInt_return, charInt_tab, if_neg (by omega),
      if_neg (by omega), if_neg (by omega), if_pos hc, h.line.i_eq, hstore]
    rfl
  · refine CArray.at_concat.mpr ⟨h.line.at_line.congr fun j _ hj => ?_, ?_⟩
    · rw [hget, if_neg (by omega)]
    · rw [Nat.zero_add, hget, if_pos rfl]

end Settled

theorem handleKey_error {c : BitVec 32} (hc : c.toInt < 0) :
    ∃ out, handleKey (some prompt) c.toInt s = .ok (.null, s.print out) := by
  obtain ⟨err, herr⟩ := errorOut_ok ⟨c.le_toInt, c.toInt_lt⟩
  exact ⟨_, by rw [handleKey, if_pos hc, herr]; rfl⟩

end Keys

/-! ## The shell -/

/-- The shell stands for the editor, and the buffers that were returned are the lines. -/
structure ShellRepr (sh : Shell) (e : Editor) : Prop where
  rl : ReadRepr sh.rl e
  running : sh.running = true
  returned : List.Forall₂ (fun b (l : TextLine) => b.At 0 (l.text ++ [0])) sh.returned e.lines

/-- A new call of `readline`. -/
theorem readRepr_start {s : ReadState} {e : Editor} {prompt : Option (List (BitVec 8))}
    (hline : e.line = .empty) (hp : e.pending = none) (hfound : s.isFound = false)
    (hring : HistRing s.hist s.histHead s.histTail s.histCurr e.lines e.pos) :
    ReadRepr (startReadline prompt s) e := by
  refine ⟨lineRepr_of_none hp ?_ ?_ hfound, hring⟩
  · rw [hline]
    trivial
  · rw [hline]
    rfl

section Shell

variable {sh : Shell} {e : Editor} {prompt : List (BitVec 8)} {c : BitVec 32}

/-- Every key but the tab. -/
theorem readlineKey_filled (h : ShellRepr sh e) (hc : c.toInt ≠ 9) :
    ∃ s, readlineKey (some prompt) c sh.rl = handleKey (some prompt) c.toInt s ∧
      ReadRepr s (e.withLine e.committed) ∧ s.echo = sh.rl.echo := by
  obtain ⟨s, hs, hrepr, hecho⟩ := fillFound_ok h.rl hc
  exact ⟨s, by rw [readlineKey, hs, ok_bind], hrepr, hecho⟩

/-- What the shell does with a key with which `readline` goes on. -/
theorem shellKey_waits {t : Stroke} {s' : ReadState} {k : Key} (h : ShellRepr sh e)
    (hkey : readlineKey (some prompt) t.key sh.rl = .ok (.waits, s'))
    (hrepr : ReadRepr s' (e.step k)) (hlines : (e.step k).lines = e.lines) :
    ∃ sh', shellKey prompt sh t = .ok sh' ∧ ShellRepr sh' (e.step k) ∧ sh'.rl = s' := by
  refine ⟨{ sh with rl := s' }, ?_, ⟨hrepr, h.running, ?_⟩, rfl⟩
  · rw [shellKey, if_pos h.running, hkey, ok_bind]
  · rw [hlines]
    exact h.returned

theorem shellKey_tab {t : Stroke} (h : ShellRepr sh e) (hc : t.key.toInt = 9) :
    ∃ sh', shellKey prompt sh t = .ok sh' ∧ ShellRepr sh' (e.step .tab) ∧
      sh'.rl.echo = e.echoAfter prompt sh.rl.echo .tab := by
  obtain ⟨s', hs', hrepr, hecho⟩ := @handleKey_tab sh.rl e prompt h.rl
  have hkey : readlineKey (some prompt) t.key sh.rl = .ok (.waits, s') := by
    rw [readlineKey, hc, fillFound, if_neg fun hcond => hcond.2.2 rfl, ok_bind, hs']
  obtain ⟨sh', hsh', hrepr', rfl⟩ := shellKey_waits h hkey hrepr rfl
  exact ⟨sh', hsh', hrepr', hecho⟩

theorem shellKey_settled {t : Stroke} (h : ShellRepr sh e)
    (hc : 0 ≤ t.key.toInt ∧ t.key.toInt ≠ 10 ∧ t.key.toInt ≠ 13 ∧ t.key.toInt ≠ 9) :
    ∃ sh', shellKey prompt sh t = .ok sh' ∧ ShellRepr sh' (e.step (keyOf t.key.toInt)) ∧
      sh'.rl.echo = sh.rl.echo ++ e.echo prompt (keyOf t.key.toInt) := by
  obtain ⟨-, henter, hk⟩ := keyOf_settled hc
  obtain ⟨s, hs, hrepr, hecho⟩ := @readlineKey_filled sh e prompt t.key h hc.2.2.2
  obtain ⟨s', hs', hrepr', hecho'⟩ := @handleKey_settled s _ prompt _ hrepr rfl hc
  rw [e.step_committed hk] at hrepr'
  rw [hecho, e.echo_committed prompt hk] at hecho'
  obtain ⟨sh', hsh', hsim, rfl⟩ := shellKey_waits h (hs.trans hs') hrepr' (e.step_lines henter)
  exact ⟨sh', hsh', hsim, hecho'⟩

theorem shellKey_error {t : Stroke} (h : ShellRepr sh e) (hc : t.key.toInt < 0) :
    ∃ sh', shellKey prompt sh t = .ok sh' ∧ ShellRepr sh' (e.step .error) ∧
      sh'.rl.echo = echoText prompt := by
  obtain ⟨s, hs, hrepr, -⟩ := @readlineKey_filled sh e prompt t.key h (by omega)
  obtain ⟨out, hout⟩ := @handleKey_error s prompt t.key hc
  have hfound : s.isFound = false := isFound_of_none hrepr rfl
  refine ⟨{ sh with rl := startReadline (some prompt) (s.print out) }, ?_, ⟨?_, h.running,
    h.returned⟩, rfl⟩
  · rw [shellKey, if_pos h.running, hs, hout, ok_bind]
  · exact readRepr_start rfl rfl hfound hrepr.ring

theorem shellKey_enter {t : Stroke} (h : ShellRepr sh e)
    (hc : t.key.toInt = 10 ∨ t.key.toInt = 13) :
    ∃ sh', shellKey prompt sh t = .ok sh' ∧ ShellRepr sh' (e.step .enter) ∧
      sh'.rl.echo = echoText prompt := by
  obtain ⟨s, hs, hrepr, -⟩ := @readlineKey_filled sh e prompt t.key h (by omega)
  obtain ⟨s', hs', hat, hfound, hring⟩ := @handleKey_enter s _ prompt _ hrepr rfl hc
  obtain ⟨saved, hsaved, hbuf, hfound', hring'⟩ := saveLine_ok hring hat
  -- the line that `runcmd` is given is terminated
  obtain ⟨k, hk⟩ := hat.exists_cell
  rw [← hbuf] at hk
  obtain ⟨r, hr, hret⟩ := runcmd_ok t.argv hk
  refine ⟨⟨startReadline (some prompt) { saved with buf := r.vars.buf }, true,
    sh.returned ++ [s'.buf]⟩, ?_, ⟨?_, rfl, ?_⟩, rfl⟩
  · rw [shellKey, if_pos h.running, hs, hs', ok_bind]
    dsimp only
    rw [hsaved, ok_bind, hr, ok_bind, if_neg (by rw [hret]; decide)]
  · exact readRepr_start rfl rfl (hfound'.trans hfound) hring'
  · exact List.rel_append h.returned (.cons hat .nil)

/-- The shell does what the editor does. -/
theorem shellKey_refines (h : ShellRepr sh e) (t : Stroke) :
    ∃ sh', shellKey prompt sh t = .ok sh' ∧ ShellRepr sh' (e.step (keyOf t.key.toInt)) ∧
      sh'.rl.echo = e.echoAfter prompt sh.rl.echo (keyOf t.key.toInt) := by
  by_cases herror : t.key.toInt < 0
  · rw [keyOf_error herror]
    exact shellKey_error h herror
  by_cases henter : t.key.toInt = 10 ∨ t.key.toInt = 13
  · rw [keyOf_enter henter]
    exact shellKey_enter h henter
  by_cases htab : t.key.toInt = 9
  · rw [htab]
    exact shellKey_tab h htab
  · have hc : 0 ≤ t.key.toInt ∧ t.key.toInt ≠ 10 ∧ t.key.toInt ≠ 13 ∧ t.key.toInt ≠ 9 := by omega
    obtain ⟨hne, hne', -⟩ := keyOf_settled hc
    rw [e.echoAfter_of_ne prompt _ hne hne']
    exact shellKey_settled h hc

end Shell

end Nctuos
