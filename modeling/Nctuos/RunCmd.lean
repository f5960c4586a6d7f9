import Nctuos.StrFuns
import Nctuos.Lib.Words
import Mathlib.Data.List.Nodup

/-!
# Command lines

`runcmd` of `user/shell.c`.  It splits a line in place: the white space is overwritten with NULs, and
`argv` points to what is left.  A NUL behind an argument is written by the next round, so an
argument is a string of its own only when the white space behind it has been gobbled
(`Splitting.terminated`).

`argv` has 16 elements, the last of which is for a NULL.  With more arguments nothing is called.
The functions of the commands are left out but for what they return, which is 0 for all of them.
-/

namespace Nctuos

open Lib

/-! ## The model -/

/-- The names in `commands`. -/
def commandNames : List (List (BitVec 8)) :=
  ["help", "mem_stat", "print_tick", "chgcolor", "forktest", "spinlocktest"].map bytesOf

/-- `WHITESPACE`. -/
def whitespace : List (BitVec 8) := bytesOf "\t\r\n "

def isWhite (c : BitVec 8) : Bool := (strchr c whitespace).isSome

/-- `argv`: pointers into the buffer, or NULL. -/
abbrev ArgVec : Type := CArray (Option Nat) 16

variable {n : Nat}

/-- `while (*buf && strchr(WHITESPACE, *buf)) *buf++ = 0;` -/
def gobble : Nat → CArray (BitVec 8) n → Nat → Except Stop (CArray (BitVec 8) n × Nat)
  | 0, _, _ => .error .hang
  | fuel + 1, buf, p => do
      let c ← loadAt buf p
      if c ≠ 0 ∧ isWhite c then do
        let buf ← storeAt buf p 0
        gobble fuel buf (p + 1)
      else .ok (buf, p)

/-- `while (*buf && !strchr(WHITESPACE, *buf)) buf++;` -/
def skipArg (buf : CArray (BitVec 8) n) : Nat → Nat → Except Stop Nat
  | 0, _ => .error .hang
  | fuel + 1, p => do
      let c ← loadAt buf p
      if c ≠ 0 ∧ ¬ isWhite c then skipArg buf fuel (p + 1) else .ok p

/-- The variables of the loop. -/
structure Splitter (n : Nat) where
  buf : CArray (BitVec 8) n
  pos : Nat
  argc : Nat
  argv : ArgVec

/-- The loop, and whether it came to the end of the line. -/
def splitLoop : Nat → Splitter n → Except Stop (Bool × Splitter n)
  | 0, _ => .error .hang
  | fuel + 1, s => do
      let (buf, p) ← gobble (n + 1) s.buf s.pos
      let c ← loadAt buf p
      if c = 0 then .ok (true, { s with buf := buf, pos := p })
      else if s.argc = 16 - 1 then .ok (false, { s with buf := buf, pos := p })
      else do
        let argv ← storeAt s.argv s.argc (some p)
        let p ← skipArg buf (n + 1) p
        splitLoop fuel ⟨buf, p, s.argc + 1, argv⟩

/-- The first command with the name. -/
def lookupFrom (arg : CharPtr) : List (List (BitVec 8)) → Nat → Except Stop (Option Nat)
  | [], _ => .ok none
  | name :: names, i => do
      let r ← strcmpFrom arg (literal name) (name.length + 1) 0
      if r = 0 then .ok (some i) else lookupFrom arg names (i + 1)

/-- What `runcmd` leaves: what it returns, what it prints itself, the variables, and the command that
it has called. -/
structure RunResult (n : Nat) where
  ret : Int
  said : List (BitVec 8)
  vars : Splitter n
  invoked : Option Nat

/-- `// Lookup and invoke the command`. -/
def invoke (s : Splitter n) : Except Stop (RunResult n) :=
  if s.argc = 0 then .ok ⟨0, [], s, none⟩
  else do
    let arg ← loadAt s.argv (0 : Nat)
    match arg with
    | none => .error .fault
    | some p => do
        let found ← lookupFrom (ptr s.buf p) commandNames 0
        match found with
        | some i => .ok ⟨0, [], s, some i⟩
        | none => do
            let name ← strReadFrom (ptr s.buf p) (n + 1) 0
            .ok ⟨0, bytesOf "Unknown command '" ++ name ++ bytesOf "'\n", s, none⟩

/-- `argv` had `garbage` in it. -/
def runcmd (buf : CArray (BitVec 8) n) (garbage : ArgVec) : Except Stop (RunResult n) := do
  let argv ← storeAt garbage (0 : Nat) none
  let (ended, s) ← splitLoop (n + 1) ⟨buf, 0, 0, argv⟩
  if ended then do
    let argv ← storeAt s.argv s.argc none
    invoke { s with argv := argv }
  else .ok ⟨0, bytesOf "Too many arguments (max 16)\n", s, none⟩

/-! ## The two inner loops -/

section Loops

variable {p fuel : Nat} {buf : CArray (BitVec 8) n} {rest : List (BitVec 8)}

/-- The white space is overwritten, and nothing else. -/
theorem gobble_ok (h : buf.At p (rest ++ [0])) (hnul : 0 ∉ rest) (hfuel : rest.length < fuel) :
    ∃ buf', gobble fuel buf p = .ok (buf', p + (rest.takeWhile isWhite).length) ∧
      buf'.At (p + (rest.takeWhile isWhite).length) (rest.dropWhile isWhite ++ [0]) ∧
      (∀ i, i < p → buf'.get? i = buf.get? i) ∧
      ((∀ c more, rest = c :: more → isWhite c) → buf'.get? p = some 0) := by
  induction rest generalizing buf p fuel with
  | nil =>
      obtain ⟨fuel, rfl⟩ := Nat.exists_eq_succ_of_ne_zero (Nat.ne_of_gt hfuel)
      refine ⟨buf, ?_, h, fun i _ => rfl, fun _ => h.1⟩
      rw [gobble, loadAt_of_get? h.1]
      rfl
  | cons c rest ih =>
      obtain ⟨fuel, rfl⟩ := Nat.exists_eq_succ_of_ne_zero (Nat.ne_zero_of_lt hfuel)
      rw [List.mem_cons, not_or] at hnul
      by_cases hwhite : isWhite c
      · obtain ⟨buf₁, hstore, hget⟩ := storeAt_ok buf 0 (CArray.lt_of_get? h.1)
        have hrest : buf₁.At (p + 1) (rest ++ [0]) :=
          h.2.congr fun j hj _ => (hget j).trans (if_neg (by omega))
        obtain ⟨buf', hgobble, hat, hbelow, -⟩ := ih hrest hnul.2 (Nat.lt_of_succ_lt_succ hfuel)
        rw [List.takeWhile_cons_of_pos hwhite, List.dropWhile_cons_of_pos hwhite, List.length_cons,
          Nat.add_comm _ 1, ← Nat.add_assoc]
        refine ⟨buf', ?_, hat, fun i hi => ?_, fun _ => ?_⟩
        · rw [gobble, loadAt_of_get? h.1, ok_bind, if_pos ⟨Ne.symm hnul.1, hwhite⟩, hstore]
          exact hgobble
        · rw [hbelow i (by omega), hget, if_neg (by omega)]
        · rw [hbelow p (Nat.lt_succ_self p), hget, if_pos rfl]
      · rw [List.takeWhile_cons_of_neg hwhite, List.dropWhile_cons_of_neg hwhite]
        refine ⟨buf, ?_, h, fun i _ => rfl, fun hall => absurd (hall c rest rfl) hwhite⟩
        rw [gobble, loadAt_of_get? h.1, ok_bind, if_neg fun hc => hwhite hc.2]
        rfl

theorem skipArg_ok (h : buf.At p (rest ++ [0])) (hnul : 0 ∉ rest) (hfuel : rest.length < fuel) :
    skipArg buf fuel p = .ok (p + (rest.takeWhile (!isWhite ·)).length) := by
  induction rest generalizing p fuel with
  | nil =>
      obtain ⟨fuel, rfl⟩ := Nat.exists_eq_succ_of_ne_zero (Nat.ne_of_gt hfuel)
      rw [skipArg, loadAt_of_get? h.1]
      rfl
  | cons c rest ih =>
      obtain ⟨fuel, rfl⟩ := Nat.exists_eq_succ_of_ne_zero (Nat.ne_zero_of_lt hfuel)
      rw [List.mem_cons, not_or] at hnul
      by_cases hwhite : isWhite c
      · rw [List.takeWhile_cons_of_neg (by simpa using hwhite), skipArg, loadAt_of_get? h.1, ok_bind,
          if_neg fun hc => hc.2 hwhite]
        rfl
      · rw [List.takeWhile_cons_of_pos (by simpa using hwhite), skipArg, loadAt_of_get? h.1, ok_bind,
          if_pos ⟨Ne.symm hnul.1, hwhite⟩, ih h.2 hnul.2 (Nat.lt_of_succ_lt_succ hfuel),
          List.length_cons, Nat.add_assoc, Nat.add_comm 1]

end Loops

/-! ## The split line -/

/-- At the top of the loop: the arguments `done` have been found and `rest` has not been read.  The
last argument may still lack its NUL, but then the gobbling is about to begin right behind it. -/
structure Splitting (s : Splitter n) (done : List (List (BitVec 8))) (rest : List (BitVec 8)) :
    Prop where
  rest_at : s.buf.At s.pos (rest ++ [0])
  rest_nul : 0 ∉ rest
  argc_eq : s.argc = done.length
  argc_le : done.length ≤ 15
  arg : ∀ j (hj : j < done.length), ∃ p, s.argv.get? j = some (some p) ∧ s.buf.At p done[j] ∧
    p + done[j].length ≤ s.pos ∧
    (s.buf.get? (p + done[j].length) = some 0 ∨
      p + done[j].length = s.pos ∧ ∀ c more, rest = c :: more → isWhite c)

/-- `argv` points to the arguments, each of them a string of its own. -/
def PointsTo (buf : CArray (BitVec 8) n) (argv : ArgVec) (args : List (List (BitVec 8))) : Prop :=
  ∀ j (hj : j < args.length), ∃ p, argv.get? j = some (some p) ∧ buf.At p (args[j] ++ [0])

section Splitting

variable {s : Splitter n} {done : List (List (BitVec 8))} {rest : List (BitVec 8)}

/-- The gobbling terminates the last argument. -/
theorem Splitting.terminated {buf' : CArray (BitVec 8) n} (h : Splitting s done rest)
    (hbelow : ∀ i, i < s.pos → buf'.get? i = s.buf.get? i)
    (hpos : (∀ c more, rest = c :: more → isWhite c) → buf'.get? s.pos = some 0) :
    ∀ j (hj : j < done.length), ∃ p, s.argv.get? j = some (some p) ∧
      buf'.At p (done[j] ++ [0]) ∧ p + done[j].length ≤ s.pos := by
  intro j hj
  obtain ⟨p, hp, hat, hle, hend⟩ := h.arg j hj
  refine ⟨p, hp, CArray.at_concat.mpr ⟨hat.congr fun i _ hi => hbelow i (by omega), ?_⟩, hle⟩
  rcases Nat.lt_or_eq_of_le hle with hlt | heq
  · rw [hbelow _ hlt]
    exact hend.resolve_right fun hlast => by omega
  · rw [heq]
    refine hpos fun c more hrest => ?_
    rcases hend with hzero | hlast
    · -- the unread text does not begin with a NUL
      have hc := h.rest_at
      rw [hrest] at hc
      rw [heq, hc.1, Option.some.injEq] at hzero
      exact absurd (hrest ▸ hzero ▸ List.mem_cons_self) h.rest_nul
    · exact hlast.2 c more hrest

theorem words_dropWhile (rest : List (BitVec 8)) :
    words isWhite (rest.dropWhile isWhite) = words isWhite rest := by
  induction rest with
  | nil => rfl
  | cons c rest ih =>
      by_cases hwhite : isWhite c
      · rw [List.dropWhile_cons_of_pos hwhite, ih, words_sep hwhite]
      · rw [List.dropWhile_cons_of_neg hwhite]

theorem not_mem_dropWhile (h : 0 ∉ rest) : 0 ∉ rest.dropWhile isWhite :=
  fun hmem => h ((List.dropWhile_suffix _).subset hmem)

/-- What follows an argument. -/
theorem dropWhile_white (rest : List (BitVec 8)) :
    ∀ c more, rest.dropWhile (!isWhite ·) = c :: more → isWhite c := by
  intro c more hrest
  have hne : rest.dropWhile (!isWhite ·) ≠ [] := by
    rw [hrest]
    exact List.cons_ne_nil c more
  have hhead := List.head_dropWhile_not (!isWhite ·) hne
  simp only [hrest, List.head_cons] at hhead
  simpa using hhead

/-- The first word of a text that does not begin with white space. -/
theorem words_cons {c : BitVec 8} {more : List (BitVec 8)} (hc : ¬ isWhite c) :
    words isWhite (c :: more) = (c :: more).takeWhile (!isWhite ·) ::
      words isWhite ((c :: more).dropWhile (!isWhite ·)) := by
  have hne : (c :: more).takeWhile (!isWhite ·) ≠ [] := by
    rw [List.takeWhile_cons_of_pos (by simpa using hc)]
    exact List.cons_ne_nil _ _
  have hword : ∀ d ∈ (c :: more).takeWhile (!isWhite ·), isWhite d = false := fun d hd => by
    simpa using List.mem_takeWhile_imp hd
  have hwords := words_run hne hword (dropWhile_white (c :: more))
  rw [List.takeWhile_append_dropWhile] at hwords
  exact hwords

/-- The next argument. -/
theorem Splitting.next {buf : CArray (BitVec 8) n} {argv : ArgVec} {p : Nat}
    {text : List (BitVec 8)} (h : Splitting s done rest)
    (hargs : ∀ j (hj : j < done.length), ∃ p, s.argv.get? j = some (some p) ∧
      buf.At p (done[j] ++ [0]) ∧ p + done[j].length ≤ s.pos)
    (hp : s.pos ≤ p) (hat : buf.At p (text ++ [0])) (hnul : 0 ∉ text) (hroom : done.length < 15)
    (hargv : ∀ i, argv.get? i = if i = s.argc then some (some p) else s.argv.get? i) :
    Splitting ⟨buf, p + (text.takeWhile (!isWhite ·)).length, s.argc + 1, argv⟩
      (done ++ [text.takeWhile (!isWhite ·)]) (text.dropWhile (!isWhite ·)) := by
  have hsplit : text.takeWhile (!isWhite ·) ++ text.dropWhile (!isWhite ·) = text :=
    List.takeWhile_append_dropWhile
  have hat' := hat
  rw [← hsplit, List.append_assoc, CArray.at_append] at hat'
  refine ⟨hat'.2, fun hmem => hnul (hsplit ▸ List.mem_append_right _ hmem), ?_, ?_, ?_⟩
  · dsimp only
    rw [h.argc_eq, List.length_append, List.length_singleton]
  · rw [List.length_append, List.length_singleton]
    omega
  · intro j hj
    rw [List.length_append, List.length_singleton] at hj
    dsimp only
    by_cases hlast : j = done.length
    · subst hlast
      refine ⟨p, (hargv _).trans (if_pos h.argc_eq.symm), ?_⟩
      rw [List.getElem_concat_length rfl]
      exact ⟨hat'.1, le_rfl, Or.inr ⟨rfl, dropWhile_white text⟩⟩
    · have hj' : j < done.length := by omega
      obtain ⟨q, hq, hstr, hle⟩ := hargs j hj'
      rw [List.getElem_append_left hj']
      refine ⟨q, ?_, (CArray.at_concat.mp hstr).1, by omega, Or.inl (CArray.at_concat.mp hstr).2⟩
      rw [hargv, h.argc_eq, if_neg hlast]
      exact hq

/-- The loop comes to the end with all of the words, or stops at the sixteenth. -/
theorem splitLoop_ok {fuel : Nat} (h : Splitting s done rest) (hfuel : rest.length < fuel) :
    ∃ ended s', splitLoop fuel s = .ok (ended, s') ∧
      (done.length + (words isWhite rest).length ≤ 15 → ended = true ∧
        s'.argc = (done ++ words isWhite rest).length ∧
        PointsTo s'.buf s'.argv (done ++ words isWhite rest)) ∧
      (15 < done.length + (words isWhite rest).length → ended = false) := by
  induction fuel generalizing s done rest with
  | zero => cases hfuel
  | succ fuel ih =>
      have hn : rest.length < n + 1 := by
        have := h.rest_at.lt
        omega
      obtain ⟨buf, hgobble, hat, hbelow, hpos⟩ := gobble_ok h.rest_at h.rest_nul hn
      have hargs := h.terminated hbelow hpos
      rw [splitLoop, hgobble, ok_bind]
      dsimp only
      rw [← words_dropWhile rest]
      have hnul := not_mem_dropWhile h.rest_nul
      have hlen := (List.dropWhile_suffix (l := rest) isWhite).length_le
      cases hrest : rest.dropWhile isWhite with
      | nil =>
          rw [hrest] at hat
          rw [loadAt_of_get? hat.1, ok_bind, if_pos rfl]
          refine ⟨true, _, rfl, fun _ => ⟨rfl, ?_, ?_⟩, fun hmany => ?_⟩
          · rw [words_nil, List.append_nil]
            exact h.argc_eq
          · rw [words_nil, List.append_nil]
            intro j hj
            obtain ⟨p, hp, hstr, -⟩ := hargs j hj
            exact ⟨p, hp, hstr⟩
          · have := h.argc_le
            rw [words_nil, List.length_nil] at hmany
            omega
      | cons c more =>
          have hwhite : ¬ isWhite c := by
            have hne : rest.dropWhile isWhite ≠ [] := by
              rw [hrest]
              exact List.cons_ne_nil c more
            have hhead := List.head_dropWhile_not isWhite hne
            simp only [hrest, List.head_cons] at hhead
            simp [hhead]
          rw [hrest] at hat hnul hlen
          have hc : c ≠ 0 := fun h0 => hnul (h0 ▸ List.mem_cons_self)
          have hwords := @words_cons c more hwhite
          have hcount : (words isWhite (c :: more)).length =
              (words isWhite ((c :: more).dropWhile (!isWhite ·))).length + 1 := by
            rw [hwords, List.length_cons]
          rw [loadAt_of_get? hat.1, ok_bind, if_neg hc]
          by_cases hfull : s.argc = 16 - 1
          · rw [if_pos hfull]
            have := h.argc_eq
            exact ⟨false, _, rfl, fun hfew => by omega, fun _ => rfl⟩
          · have hroom : done.length < 15 := by
              have := h.argc_eq
              have := h.argc_le
              omega
            obtain ⟨argv, hstore, hargv⟩ := storeAt_ok s.argv
              (some (s.pos + (rest.takeWhile isWhite).length))
              (by rw [h.argc_eq]; omega : s.argc < 16)
            have hnext := h.next hargs (Nat.le_add_right _ _) hat hnul hroom hargv
            have hless : ((c :: more).dropWhile (!isWhite ·)).length < fuel := by
              have hrun : (c :: more).dropWhile (!isWhite ·) = more.dropWhile (!isWhite ·) :=
                List.dropWhile_cons_of_pos (by simpa using hwhite)
              have := (List.dropWhile_suffix (l := more) (!isWhite ·)).length_le
              rw [hrun]
              rw [List.length_cons] at hlen
              omega
            obtain ⟨ended, s', hloop, hfew, hmany⟩ := ih hnext hless
            refine ⟨ended, s', ?_, fun hle => ?_, fun hlt => hmany ?_⟩
            · have hbound : (c :: more).length < n + 1 := by omega
              rw [if_neg hfull, hstore, ok_bind, skipArg_ok hat hnul hbound, ok_bind]
              exact hloop
            · have hfew' := hfew (by rw [List.length_append, List.length_singleton]; omega)
              rw [List.append_assoc, List.singleton_append, ← hwords] at hfew'
              exact hfew'
            · rw [List.length_append, List.length_singleton]
              omega

end Splitting

/-! ## The command -/

/-- The first of the commands that has the name. -/
theorem lookupFrom_ok {arg : CharPtr} {t : List (BitVec 8)} (h : ReadsAs arg 0 t)
    {names : List (List (BitVec 8))} (hnames : ∀ name ∈ names, 0 ∉ name) (i : Nat) :
    lookupFrom arg names i = .ok ((names.findIdx? (· = t)).map (· + i)) := by
  induction names generalizing i with
  | nil => rfl
  | cons name names ih =>
      have hname : ReadsAs (literal name) 0 name :=
        readsAs_literal [] (hnames name List.mem_cons_self)
      obtain ⟨r, hr, hiff⟩ := strcmpFrom_ok h hname (Nat.lt_succ_self _)
      rw [lookupFrom, hr, ok_bind, List.findIdx?_cons]
      by_cases heq : name = t
      · rw [if_pos (hiff.mpr heq.symm), if_pos (decide_eq_true heq), Option.map_some, Nat.zero_add]
      · rw [if_neg fun h0 => heq (hiff.mp h0).symm, if_neg (by simpa using heq),
          ih (fun name hname => hnames name (List.mem_cons_of_mem _ hname)), Option.map_map]
        congr 2
        funext k
        change k + (i + 1) = k + 1 + i
        omega

theorem commandNames_nul : ∀ name ∈ commandNames, (0 : BitVec 8) ∉ name := by decide

theorem commandNames_nodup : commandNames.Nodup := by decide

/-- No two commands have the same name, so the first one that fits is the one. -/
theorem findIdx?_commandNames {t : List (BitVec 8)} {i : Nat} :
    commandNames.findIdx? (· = t) = some i ↔ commandNames[i]? = some t := by
  rw [List.findIdx?_eq_some_iff_getElem, List.getElem?_eq_some_iff]
  constructor
  · rintro ⟨hi, heq, -⟩
    exact ⟨hi, by simpa using heq⟩
  · rintro ⟨hi, heq⟩
    refine ⟨hi, by simpa using heq, fun j hj => ?_⟩
    have hne : commandNames[j] ≠ t := fun hj' =>
      Nat.ne_of_lt hj ((List.Nodup.getElem_inj_iff commandNames_nodup).mp (hj'.trans heq.symm))
    simpa using hne

/-- With `args` in `argv`, the command that the first of them names is called. -/
theorem invoke_ok {s : Splitter n} {args : List (List (BitVec 8))} (hargc : s.argc = args.length)
    (hargs : PointsTo s.buf s.argv args) (hnul : ∀ w ∈ args, 0 ∉ w) :
    ∃ r, invoke s = .ok r ∧ r.ret = 0 ∧ r.vars = s ∧
      ∀ i, r.invoked = some i ↔ ∃ name, commandNames[i]? = some name ∧ args.head? = some name := by
  cases args with
  | nil =>
      refine ⟨_, if_pos hargc, rfl, rfl, fun i => ?_⟩
      simp
  | cons arg args =>
      obtain ⟨p, hp, hat⟩ := hargs 0 (Nat.succ_pos _)
      have hread : ReadsAs (ptr s.buf p) 0 arg := readsAs_ptr hat (hnul arg List.mem_cons_self)
      have hargc' : s.argc ≠ 0 := by
        rw [hargc]
        exact Nat.succ_ne_zero _
      have hiff (i : Nat) : commandNames.findIdx? (· = arg) = some i ↔
          ∃ name, commandNames[i]? = some name ∧ (arg :: args).head? = some name := by
        rw [findIdx?_commandNames, List.head?_cons]
        constructor
        · exact fun h => ⟨arg, h, rfl⟩
        · rintro ⟨name, hname, heq⟩
          rw [hname, heq]
      rw [invoke, if_neg hargc', loadAt_of_get? hp, ok_bind]
      dsimp only
      rw [lookupFrom_ok hread commandNames_nul, ok_bind]
      cases hfound : commandNames.findIdx? (· = arg) with
      | some k =>
          refine ⟨_, rfl, rfl, rfl, fun i => ?_⟩
          rw [← hiff, hfound]
          rfl
      | none =>
          have hlt := hat.lt
          change p + arg.length < n at hlt
          rw [Option.map_none]
          dsimp only
          rw [strReadFrom_ok hread (by omega), ok_bind]
          refine ⟨_, rfl, rfl, rfl, fun i => ?_⟩
          rw [← hiff, hfound]

/-! ## Splitting a line -/

/-- The maximal runs of characters other than tab, CR, LF and space. -/
def runsOf (s : List (BitVec 8)) : List (List (BitVec 8)) :=
  words (fun c => c = 9 ∨ c = 13 ∨ c = 10 ∨ c = 32) s

theorem isWhite_iff (c : BitVec 8) : isWhite c ↔ c = 9 ∨ c = 13 ∨ c = 10 ∨ c = 32 := by
  rw [isWhite, strchr_isSome, show whitespace = [9, 13, 10, 32] by decide]
  simp only [List.mem_cons, List.not_mem_nil, or_false]

theorem words_isWhite (s : List (BitVec 8)) : words isWhite s = runsOf s := by
  have hsep : isWhite = fun c => decide (c = 9 ∨ c = 13 ∨ c = 10 ∨ c = 32) := by
    funext c
    rw [Bool.eq_iff_iff, isWhite_iff, decide_eq_true_iff]
  rw [hsep]
  rfl

/-- The state in front of the loop. -/
theorem splitting_start {buf : CArray (BitVec 8) n} {s : List (BitVec 8)} (argv : ArgVec)
    (hat : buf.At 0 (s ++ [0])) (hnul : 0 ∉ s) : Splitting ⟨buf, 0, 0, argv⟩ [] s :=
  ⟨hat, hnul, rfl, Nat.zero_le _, fun j hj => absurd hj (Nat.not_lt_zero j)⟩

section Command

variable {buf : CArray (BitVec 8) n} {k : Fin n} (garbage : ArgVec) (hk : buf.cell k = 0)

include hk

/-- The loop as `runcmd` enters it. -/
theorem splitLoop_start :
    ∃ argv ended s, storeAt garbage (0 : Nat) none = .ok argv ∧
      splitLoop (n + 1) ⟨buf, 0, 0, argv⟩ = .ok (ended, s) ∧
      ((runsOf (buf.upTo 0)).length ≤ 15 → ended = true ∧
        s.argc = (runsOf (buf.upTo 0)).length ∧ PointsTo s.buf s.argv (runsOf (buf.upTo 0))) ∧
      (15 < (runsOf (buf.upTo 0)).length → ended = false) := by
  obtain ⟨hat, hnul⟩ := CArray.at_upTo hk
  have hlen := hat.lt
  obtain ⟨argv, hstore, -⟩ := storeAt_ok garbage none (by omega : 0 < 16)
  obtain ⟨ended, s, hloop, hfew, hmany⟩ := splitLoop_ok (splitting_start argv hat hnul)
    (by omega : (buf.upTo 0).length < n + 1)
  rw [List.nil_append, List.length_nil, Nat.zero_add, words_isWhite] at hfew
  rw [List.length_nil, Nat.zero_add, words_isWhite] at hmany
  exact ⟨argv, ended, s, hstore, hloop, hfew, hmany⟩

theorem runcmd_few (hle : (runsOf (buf.upTo 0)).length ≤ 15) :
    ∃ r, runcmd buf garbage = .ok r ∧ r.ret = 0 ∧
      r.vars.argc = (runsOf (buf.upTo 0)).length ∧
      r.vars.argv.get? r.vars.argc = some none ∧
      PointsTo r.vars.buf r.vars.argv (runsOf (buf.upTo 0)) ∧
      ∀ i, r.invoked = some i ↔
        ∃ name, commandNames[i]? = some name ∧ (runsOf (buf.upTo 0)).head? = some name := by
  obtain ⟨argv₀, ended, s, hstore₀, hloop, hfew, -⟩ := splitLoop_start garbage hk
  obtain ⟨hended, hargc, hargs⟩ := hfew hle
  obtain ⟨argv, hstore, hget⟩ := storeAt_ok s.argv none (by omega : s.argc < 16)
  have hargs' : PointsTo s.buf argv (runsOf (buf.upTo 0)) := by
    intro j hj
    obtain ⟨p, hp, hstr⟩ := hargs j hj
    exact ⟨p, by rw [hget, if_neg (by omega), hp], hstr⟩
  have hnul : ∀ w ∈ runsOf (buf.upTo 0), 0 ∉ w := fun w hw h0 =>
    (CArray.at_upTo hk).2 (mem_of_mem_words hw h0)
  obtain ⟨r, hr, hret, hvars, hinvoked⟩ := invoke_ok (s := { s with argv := argv }) hargc hargs' hnul
  refine ⟨r, ?_, hret, ?_⟩
  · rw [runcmd, hstore₀, ok_bind, hloop, ok_bind]
    dsimp only
    rw [hended, if_pos rfl, hstore, ok_bind, hr]
  · rw [hvars]
    exact ⟨hargc, by rw [hget, if_pos rfl], hargs', hinvoked⟩

theorem runcmd_many (hlt : 15 < (runsOf (buf.upTo 0)).length) :
    ∃ r, runcmd buf garbage = .ok r ∧ r.ret = 0 ∧ r.invoked = none := by
  obtain ⟨argv₀, ended, s, hstore₀, hloop, -, hmany⟩ := splitLoop_start garbage hk
  rw [runcmd, hstore₀, ok_bind, hloop, ok_bind]
  dsimp only
  rw [hmany hlt, if_neg Bool.false_ne_true]
  exact ⟨_, rfl, rfl, rfl⟩

theorem runcmd_ok : ∃ r, runcmd buf garbage = .ok r ∧ r.ret = 0 := by
  rcases Nat.lt_or_ge 15 (runsOf (buf.upTo 0)).length with hlt | hle
  · obtain ⟨r, hr, hret, -⟩ := runcmd_many garbage hk hlt
    exact ⟨r, hr, hret⟩
  · obtain ⟨r, hr, hret, -⟩ := runcmd_few garbage hk hle
    exact ⟨r, hr, hret⟩

end Command

/-- A line is split into its runs and the command of the first one is called; with more than 15 of
them nothing is. -/
theorem runcmd_splits (buf : CArray (BitVec 8) n) (garbage : ArgVec) (k : Fin n)
    (hk : buf.cell k = 0) :
    ∃ r, runcmd buf garbage = .ok r ∧
      ((runsOf (buf.upTo 0)).length ≤ 15 →
        r.vars.argc = (runsOf (buf.upTo 0)).length ∧
        r.vars.argv.get? r.vars.argc = some none ∧
        PointsTo r.vars.buf r.vars.argv (runsOf (buf.upTo 0)) ∧
        ∀ i, r.invoked = some i ↔
          ∃ name, commandNames[i]? = some name ∧ (runsOf (buf.upTo 0)).head? = some name) ∧
      (15 < (runsOf (buf.upTo 0)).length → r.ret = 0 ∧ r.invoked = none) := by
  rcases Nat.lt_or_ge 15 (runsOf (buf.upTo 0)).length with hlt | hle
  · obtain ⟨r, hr, hnone⟩ := runcmd_many garbage hk hlt
    exact ⟨r, hr, fun hle => absurd hle (Nat.not_le.mpr hlt), fun _ => hnone⟩
  · obtain ⟨r, hr, -, hfew⟩ := runcmd_few garbage hk hle
    exact ⟨r, hr, fun _ => hfew, fun hlt => absurd hle (Nat.not_le.mpr hlt)⟩

/-- The line ` help\tme `. -/
theorem runcmd_splits_help :
    ∃ r, runcmd (n := 16) ⟨fun i => (bytesOf " help\tme ").getD i 0⟩ (CArray.fill 16 none) = .ok r ∧
      r.vars.argc = 2 ∧ r.invoked = some 0 := by
  obtain ⟨r, hr, hfew, -⟩ := runcmd_splits (n := 16) ⟨fun i => (bytesOf " help\tme ").getD i 0⟩
    (CArray.fill 16 none) 9 (by decide)
  have hruns : runsOf (CArray.upTo 0
      (⟨fun i => (bytesOf " help\tme ").getD i 0⟩ : CArray (BitVec 8) 16)) =
      [bytesOf "help", bytesOf "me"] := by decide
  rw [hruns] at hfew
  obtain ⟨hargc, -, -, hinvoked⟩ := hfew (by decide)
  exact ⟨r, hr, hargc, (hinvoked 0).mpr ⟨bytesOf "help", by decide, rfl⟩⟩

end Nctuos
