import Nctuos.NullPage
import Mathlib.Data.List.Induction

/-!
# The CPU records

`mp_init` makes a record `cpus[i]` for each processor entry of the configuration table and remembers
in `bootcpu` the one that the table says is the boot processor.  Two things are asked of the result.

That the table is usable (`UsableCpus`).  It is not for every table that `mpconfig` accepts.  A boot
flag behind the eighth processor sets `bootcpu` to `&cpus[NCPU]`, one behind the array, since it is
looked at before `ncpu` is; when an unknown entry makes `mp_init` fall back to one CPU, `ncpu` is
set to 1 but `bootcpu` stays where it was; and a table without processors leaves `ncpu` at 0.
`usable_cpus_iff` says that there is nothing else.

That each processor finds its own record (`OwnRecords`).  Records are numbered in the order of the
table, but `cpunum` reads the APIC id of the processor it runs on and `boot_aps` sends the number
of a record as an APIC id.  The `apicid` of an entry is read only to be printed.  So the ids have to
be 0, 1, 2, … in the order of the table (`own_records_iff`).

What `mp_init` makes of a table depends on its processor entries alone, up to the first entry of an
unknown type (`procEntries`); every proof goes by induction on this list, from its end.
-/

namespace Nctuos

open Lib

/-! ## The processor entries -/

/-- The addresses of the processor entries among the `n` entries from `p` on, as far as `mp_init`
comes. -/
def procEntries (ph : Phys) : Nat → Nat → List Nat
  | 0, _ => []
  | n + 1, p =>
      match MpEntryType.ofByte (ph.u8 p) with
      | none => []
      | some .proc => p :: procEntries ph n (p + MpEntryType.proc.size)
      | some t => procEntries ph n (p + t.size)

/-- Those of the table at `conf`. -/
def confProcs (ph : Phys) (conf : Nat) : List Nat :=
  procEntries ph (confEntry ph conf) (confEntries conf)

/-- All entries of the table at `conf` are of known types. -/
def KnownTable (ph : Phys) (conf : Nat) : Prop :=
  KnownEntries ph (confEntry ph conf) (confEntries conf)

/-- The field `apicid` of the `struct mpproc` at `p`. -/
def mpprocApicid (ph : Phys) (p : Nat) : Nat := ph.u8 (p + 1)

section Procs

variable {c : Config} {ph : Phys} {n p conf : Nat} {s : MpState} {l : List Nat}

/-- The loop, as a loop over the processor entries. -/
theorem mpEntries_procs :
    (mpEntries ph n p s).cpus = ((procEntries ph n p).foldl (fun s p => mpProc ph p s) s).cpus ∧
    (mpEntries ph n p s).ncpu = ((procEntries ph n p).foldl (fun s p => mpProc ph p s) s).ncpu ∧
    (mpEntries ph n p s).bootcpu =
      ((procEntries ph n p).foldl (fun s p => mpProc ph p s) s).bootcpu := by
  induction n generalizing p s with
  | zero => exact ⟨rfl, rfl, rfl⟩
  | succ n ih =>
      cases ht : MpEntryType.ofByte (ph.u8 p) with
      | none =>
          rw [mpEntries, procEntries, ht]
          exact ⟨rfl, rfl, rfl⟩
      | some t =>
          rw [mpEntries_succ ht, procEntries, ht]
          cases t <;> exact ih

/-- The case `MPPROC`, field by field. -/
theorem mpProc_eq :
    mpProc ph p s =
      { s with
        bootcpu := if mpprocBoot ph p then s.ncpu else s.bootcpu
        ncpu := if s.ncpu < ncpuMax then s.ncpu + 1 else s.ncpu
        cpus := if s.ncpu < ncpuMax then
          Function.update s.cpus s.ncpu { s.cpus s.ncpu with cpuId := s.ncpu } else s.cpus } := by
  by_cases hboot : mpprocBoot ph p <;> by_cases hlt : s.ncpu < ncpuMax <;>
    simp [mpProc, hboot, hlt]

theorem mpProc_bootcpu :
    (mpProc ph p s).bootcpu = if mpprocBoot ph p then s.ncpu else s.bootcpu := by
  rw [mpProc_eq]

theorem mpProc_ncpu : (mpProc ph p s).ncpu = if s.ncpu < ncpuMax then s.ncpu + 1 else s.ncpu := by
  rw [mpProc_eq]

theorem mpProc_cpus :
    (mpProc ph p s).cpus = if s.ncpu < ncpuMax then
      Function.update s.cpus s.ncpu { s.cpus s.ncpu with cpuId := s.ncpu } else s.cpus := by
  rw [mpProc_eq]

/-- What the processor entries make of the records, from the state that `mp_init` starts with. -/
structure ProcsDone (ph : Phys) (l : List Nat) (s : MpState) : Prop where
  ncpu : s.ncpu = min l.length ncpuMax
  cpuId : ∀ i < s.ncpu, (s.cpus i).cpuId = i
  /-- The record that is left when `mp_init` falls back to one CPU, used or not. -/
  first : (s.cpus 0).cpuId = 0
  unused : ∀ i, (s.cpus i).cpuStatus = .unused
  /-- `bootcpu` is the last of the entries with a boot flag, so a bound for it is one for all. -/
  bootcpu : ∀ b, 0 < b → (s.bootcpu < b ↔
    ∀ i p, l[i]? = some p → mpprocBoot ph p → min i ncpuMax < b)

theorem procsDone_nil (a : Nat) :
    ProcsDone ph [] { MpState.zero with ismp := true, lapicaddr := a } where
  ncpu := rfl
  cpuId i hi := absurd hi (Nat.not_lt_zero i)
  first := rfl
  unused _ := rfl
  bootcpu b hb := iff_of_true hb fun i p hp => by simp at hp

/-- One entry more. -/
theorem ProcsDone.concat (h : ProcsDone ph l s) (p : Nat) :
    ProcsDone ph (l ++ [p]) (mpProc ph p s) := by
  have hncpu := h.ncpu
  refine ⟨?_, fun i hi => ?_, ?_, fun i => ?_, fun b hb => ?_⟩
  · rw [mpProc_ncpu, List.length_append, List.length_singleton]
    split <;> omega
  · rw [mpProc_cpus]
    rw [mpProc_ncpu] at hi
    split at hi
    · rename_i hlt
      rw [if_pos hlt]
      by_cases heq : i = s.ncpu
      · rw [heq, Function.update_self]
      · rw [Function.update_of_ne heq]
        exact h.cpuId i (by omega)
    · rename_i hlt
      rw [if_neg hlt]
      exact h.cpuId i hi
  · rw [mpProc_cpus]
    split
    · by_cases heq : 0 = s.ncpu
      · rw [← heq, Function.update_self]
      · rw [Function.update_of_ne heq, h.first]
    · exact h.first
  · rw [mpProc_cpus]
    split
    · by_cases heq : i = s.ncpu
      · rw [heq, Function.update_self]
        exact h.unused _
      · rw [Function.update_of_ne heq, h.unused]
    · exact h.unused i
  · -- the new entry is behind all others
    have hsplit : (∀ i q, (l ++ [p])[i]? = some q → mpprocBoot ph q → min i ncpuMax < b) ↔
        (∀ i q, l[i]? = some q → mpprocBoot ph q → min i ncpuMax < b) ∧
          (mpprocBoot ph p → min l.length ncpuMax < b) := by
      constructor
      · intro hall
        refine ⟨fun i q hq => hall i q ?_, hall l.length p (by simp)⟩
        rwa [List.getElem?_append_left (List.getElem?_eq_some_iff.mp hq).1]
      · rintro ⟨hold, hnew⟩ i q hq hflag
        rcases Nat.lt_or_ge i l.length with hi | hi
        · rw [List.getElem?_append_left hi] at hq
          exact hold i q hq hflag
        · rw [List.getElem?_append_right hi, List.getElem?_singleton] at hq
          split at hq
          · obtain rfl := Option.some.inj hq
            have := hnew hflag
            omega
          · cases hq
    rw [mpProc_bootcpu, hsplit]
    by_cases hflag : mpprocBoot ph p
    · rw [if_pos hflag, hncpu]
      refine ⟨fun hlt => ⟨fun i q hq _ => ?_, fun _ => hlt⟩, fun hall => hall.2 hflag⟩
      have hi := (List.getElem?_eq_some_iff.mp hq).1
      omega
    · rw [if_neg hflag, h.bootcpu b hb]
      exact (and_iff_left fun hp => absurd hp hflag).symm

theorem procsDone_foldl (l : List Nat) (a : Nat) :
    ProcsDone ph l (l.foldl (fun s p => mpProc ph p s)
      { MpState.zero with ismp := true, lapicaddr := a }) := by
  induction l using List.reverseRecOn with
  | nil => exact procsDone_nil a
  | append_singleton l p ih =>
      rw [List.foldl_append]
      exact ih.concat p

theorem startBoot_cpuId (i : Nat) : (s.startBoot.cpus i).cpuId = (s.cpus i).cpuId := by
  rw [MpState.startBoot]
  by_cases heq : i = s.bootcpu <;> simp [heq]

theorem startBoot_started (h : ∀ i, (s.cpus i).cpuStatus = .unused) (i : Nat) :
    (s.startBoot.cpus i).cpuStatus = .started ↔ i = s.bootcpu := by
  rw [MpState.startBoot]
  by_cases heq : i = s.bootcpu <;> simp [heq, h i]

/-- What `mp_init` leaves when there is a table. -/
structure MpDone (ph : Phys) (conf : Nat) (s : MpState) : Prop where
  known : KnownTable ph conf → s.ncpu = min (confProcs ph conf).length ncpuMax
  unknown : ¬ KnownTable ph conf → s.ncpu = 1
  cpuId : ∀ i < s.ncpu, (s.cpus i).cpuId = i
  started : ∀ i, (s.cpus i).cpuStatus = .started ↔ i = s.bootcpu
  bootcpu : ∀ b, 0 < b → (s.bootcpu < b ↔
    ∀ i p, (confProcs ph conf)[i]? = some p → mpprocBoot ph p → min i ncpuMax < b)

theorem mpInit_done (hconf : mpconfig c ph = .ok (some conf)) (h : mpInit c ph = .ok s) :
    MpDone ph conf s := by
  rw [mpInit, hconf, ok_bind] at h
  simp only at h
  obtain ⟨hcpus, hncpu, hboot⟩ := @mpEntries_procs ph (confEntry ph conf) (confEntries conf)
    { MpState.zero with ismp := true, lapicaddr := confLapicaddr ph conf }
  have hismp := (@mpEntries_spec ph (confEntry ph conf) (confEntries conf)
    { MpState.zero with ismp := true, lapicaddr := confLapicaddr ph conf }).2.trans
      (and_iff_right rfl)
  have hdone := @procsDone_foldl ph (confProcs ph conf) (confLapicaddr ph conf)
  generalize mpEntries ph (confEntry ph conf) (confEntries conf) _ = s₁ at h hcpus hncpu hboot hismp
  have hunused : ∀ i, (s₁.cpus i).cpuStatus = .unused := fun i => hcpus ▸ hdone.unused i
  have hbelow := hdone.bootcpu
  rw [confProcs, ← hboot, ← confProcs] at hbelow
  split at h
  · rename_i hknown
    cases h
    refine ⟨fun _ => hncpu.trans hdone.ncpu, fun hnot => absurd (hismp.mp hknown) hnot,
      fun i hi => ?_, startBoot_started hunused, hbelow⟩
    rw [startBoot_cpuId, hcpus]
    exact hdone.cpuId i (hncpu ▸ hi)
  · rename_i hunknown
    cases h
    refine ⟨fun hknown => absurd (hismp.mpr hknown) hunknown, fun _ => rfl, fun i hi => ?_,
      startBoot_started hunused, hbelow⟩
    obtain rfl : i = 0 := Nat.lt_one_iff.mp hi
    rw [startBoot_cpuId, hcpus]
    exact hdone.first

end Procs

/-! ## A usable table -/

/-- What the kernel takes for granted of the CPU records. -/
structure UsableCpus (s : MpState) : Prop where
  ncpu_pos : 1 ≤ s.ncpu
  ncpu_le : s.ncpu ≤ ncpuMax
  cpuId : ∀ i < s.ncpu, (s.cpus i).cpuId = i
  bootcpu_lt : s.bootcpu < s.ncpu
  started : ∀ i < ncpuMax, (s.cpus i).cpuStatus = .started ↔ i = s.bootcpu

/-- The number of processors that may carry the boot flag, from the first on: one if there is an
unknown entry, and `NCPU` otherwise. -/
def BootFlagsBelow (ph : Phys) (conf n : Nat) : Prop :=
  ∀ i p, (confProcs ph conf)[i]? = some p → mpprocBoot ph p → i < n

/-- **When the CPU records are usable.**  If all entries of the table are known, it needs a
processor, and none with a boot flag behind the first `NCPU`; if not, only the first processor may
have the flag. -/
theorem usable_cpus_iff {c : Config} {ph : Phys} {conf : Nat} {s : MpState}
    (hconf : mpconfig c ph = .ok (some conf)) (h : mpInit c ph = .ok s) :
    UsableCpus s ↔
      KnownTable ph conf ∧ confProcs ph conf ≠ [] ∧ BootFlagsBelow ph conf ncpuMax ∨
      ¬ KnownTable ph conf ∧ BootFlagsBelow ph conf 1 := by
  have hdone := mpInit_done hconf h
  have hmax : 0 < ncpuMax := by decide
  by_cases hk : KnownTable ph conf
  · have hncpu := hdone.known hk
    simp only [hk, true_and, not_true_eq_false, false_and, or_false]
    constructor
    · rintro ⟨hpos, -, -, hlt, -⟩
      refine ⟨List.length_pos_iff.mp (by omega), fun i p hp hflag => ?_⟩
      have hmin := (hdone.bootcpu _ hpos).mp hlt i p hp hflag
      omega
    · rintro ⟨hne, hflags⟩
      have hpos : 0 < (confProcs ph conf).length := List.length_pos_iff.mpr hne
      refine ⟨by omega, by omega, hdone.cpuId, ?_, fun i _ => hdone.started i⟩
      refine (hdone.bootcpu _ (by omega)).mpr fun i p hp hflag => ?_
      have hi := (List.getElem?_eq_some_iff.mp hp).1
      have hi' := hflags i p hp hflag
      omega
  · have hncpu := hdone.unknown hk
    simp only [hk, false_and, not_false_eq_true, true_and, false_or]
    constructor
    · rintro ⟨hpos, -, -, hlt, -⟩ i p hp hflag
      have hmin := (hdone.bootcpu _ hpos).mp hlt i p hp hflag
      omega
    · intro hflags
      refine ⟨by omega, by omega, hdone.cpuId, ?_, fun i _ => hdone.started i⟩
      refine (hdone.bootcpu _ (by omega)).mpr fun i p hp hflag => ?_
      have hi := hflags i p hp hflag
      omega

/-! ## Tables in memory -/

/-- A `struct mpproc`. -/
def mpprocBytes (apicid flags : BitVec 8) : List (BitVec 8) :=
  [0x00, apicid, 0x14, flags] ++ List.replicate 16 0

/-- A `struct mpconf` with a local APIC, its entries and the checksum that makes the sum 0. -/
def mpconfBytes (count : BitVec 8) (entries : List (BitVec 8)) : List (BitVec 8) :=
  let bytes := fun checksum : BitVec 8 =>
    [0x50, 0x43, 0x4D, 0x50, BitVec.ofNat 8 (44 + entries.length), 0, 4, checksum] ++
      List.replicate 26 0 ++ [count, 0, 0x00, 0x00, 0xE0, 0xFE, 0, 0, 0, 0] ++ entries
  bytes (-(bytes 0).foldr (· + ·) 0)

/-- Memory with such a table behind a floating pointer structure at the start of the EBDA. -/
def Phys.ofEntries (count : BitVec 8) (entries : List (BitVec 8)) : Phys := fun a =>
  if a = 0x40E then 0xC0 else if a = 0x40F then 0x9F
  else if 0x9FC00 ≤ a then (mpTable.take 16 ++ mpconfBytes count entries).getD (a - 0x9FC00) 0
  else 0

/-- Two processors, the first of them the boot processor. -/
def Phys.twoCpus (id₀ id₁ : BitVec 8) : Phys :=
  .ofEntries 2 (mpprocBytes id₀ 3 ++ mpprocBytes id₁ 1)

/-- Two processors, the second of them the boot processor, and an entry of type 5. -/
def Phys.unknownEntry : Phys := .ofEntries 3 (mpprocBytes 0 1 ++ mpprocBytes 1 3 ++ [5])

/-- Nine processors, the last of them the boot processor. -/
def Phys.nineCpus : Phys :=
  .ofEntries 9 (((List.range 8).flatMap fun i => mpprocBytes (BitVec.ofNat 8 i) 1) ++ mpprocBytes 8 3)

/-- A table without processors. -/
def Phys.noCpus : Phys := .ofEntries 0 []

theorem mpInit_of_conf {c : Config} {ph : Phys} {conf : Nat}
    (h : mpconfig c ph = .ok (some conf)) : ∃ s, mpInit c ph = .ok s := by
  rw [mpInit, h, ok_bind]
  simp only
  split <;> exact ⟨_, rfl⟩

theorem mpconfig_of_toOption {c : Config} {ph : Phys} {conf : Nat}
    (h : (mpconfig c ph).toOption = some (some conf)) : mpconfig c ph = .ok (some conf) := by
  cases hrun : mpconfig c ph with
  | error e =>
      rw [hrun] at h
      cases h
  | ok r =>
      rw [hrun] at h
      rw [Option.some.inj h]

theorem mpconfig_twoCpus :
    mpconfig .small (.twoCpus 0 1) = .ok (some 0x9FC10) ∧
      KnownTable (.twoCpus 0 1) 0x9FC10 ∧ confProcs (.twoCpus 0 1) 0x9FC10 = [0x9FC3C, 0x9FC50] := by
  refine ⟨mpconfig_of_toOption (by decide +kernel), ?_, by decide +kernel⟩
  have hcount : confEntry (.twoCpus 0 1) 0x9FC10 = 2 := by decide +kernel
  rw [KnownTable, hcount]
  exact ⟨.proc, by decide +kernel, .proc, by decide +kernel, trivial⟩

/-- The first table is usable. -/
theorem usable_cpus_two :
    ∃ s, mpInit .small (.twoCpus 0 1) = .ok s ∧ UsableCpus s := by
  obtain ⟨hconf, hknown, hprocs⟩ := mpconfig_twoCpus
  obtain ⟨s, hs⟩ := mpInit_of_conf hconf
  refine ⟨s, hs, (usable_cpus_iff hconf hs).mpr (Or.inl ⟨hknown, ?_, fun i p hp _ => ?_⟩)⟩
  · rw [hprocs]
    exact List.cons_ne_nil _ _
  · have hi := (List.getElem?_eq_some_iff.mp hp).1
    rw [hprocs] at hi
    exact lt_trans hi (by decide)

/-- A table is not usable if `bootcpu` comes to lie behind `cpus[0..ncpu)`. -/
theorem not_usable {ph : Phys} {n b : Nat}
    (hconf : (mpconfig .small ph).toOption = some (some 0x9FC10))
    (heval : ((mpInit .small ph).toOption.map fun s => (s.ncpu, s.bootcpu)) = some (n, b))
    (hle : n ≤ b) :
    ∃ conf s, mpconfig .small ph = .ok (some conf) ∧ mpInit .small ph = .ok s ∧
      s.ncpu ≤ s.bootcpu ∧ ¬ UsableCpus s := by
  obtain ⟨s, hs⟩ := mpInit_of_conf (mpconfig_of_toOption hconf)
  rw [hs] at heval
  obtain ⟨rfl, rfl⟩ := Prod.mk.inj (Option.some.inj heval)
  exact ⟨_, s, mpconfig_of_toOption hconf, hs, hle, fun hu => absurd hu.bootcpu_lt (by omega)⟩

/-- The other three are accepted and not usable. -/
theorem unusable_cpus :
    (∃ conf s, mpconfig .small .unknownEntry = .ok (some conf) ∧
      mpInit .small .unknownEntry = .ok s ∧ s.ncpu ≤ s.bootcpu ∧ ¬ UsableCpus s) ∧
    (∃ conf s, mpconfig .small .nineCpus = .ok (some conf) ∧
      mpInit .small .nineCpus = .ok s ∧ s.ncpu ≤ s.bootcpu ∧ ¬ UsableCpus s) ∧
    (∃ conf s, mpconfig .small .noCpus = .ok (some conf) ∧
      mpInit .small .noCpus = .ok s ∧ s.ncpu ≤ s.bootcpu ∧ ¬ UsableCpus s) :=
  ⟨@not_usable .unknownEntry 1 1 (by decide +kernel) (by decide +kernel) le_rfl,
    @not_usable .nineCpus 8 8 (by decide +kernel) (by decide +kernel) le_rfl,
    @not_usable .noCpus 0 0 (by decide +kernel) (by decide +kernel) le_rfl⟩

/-! ## Each processor and its record -/

/-- `cpunum` on the processor with APIC id `a`: the register `ID` has it in its upper byte. -/
def cpunum (lapic a : Nat) : Nat := if lapic ≠ 0 then ((a <<< 24) % 2 ^ 32) >>> 24 else 0

/-- The processor with APIC id `id` is started: in `mp_main` it marks its own record. -/
def mpMain (lapic : Nat) (cpus : Nat → MpCpu) (id : Nat) : Nat → MpCpu :=
  Function.update cpus (cpunum lapic id) { cpus (cpunum lapic id) with cpuStatus := .started }

/-- The calls of `lapic_startap` that `boot_aps` makes on the processor with APIC id `b`, for the
records in a list: each with its record and the id that is passed.  `ids` are the processors there
are.  If the one that was started does not mark the record for which `boot_aps` waits, or there is
none with that id, `boot_aps` waits for ever. -/
def bootAps (lapic : Nat) (ids : List Nat) (b : Nat) : List Nat → (Nat → MpCpu) → List (Nat × Nat)
  | [], _ => []
  | i :: is, cpus =>
      if (cpus i).cpuId = cpunum lapic b then bootAps lapic ids b is cpus
      else
        let id := (cpus i).cpuId
        let cpus := if id ∈ ids then mpMain lapic cpus id else cpus
        (i, id) :: if (cpus i).cpuStatus = .started then bootAps lapic ids b is cpus else []

/-- The APIC ids in the table. -/
def confApicids (ph : Phys) (conf : Nat) : List Nat := (confProcs ph conf).map (mpprocApicid ph)

/-- They are 0, 1, 2, … in the order of the table. -/
def ApicidsInOrder (ph : Phys) (conf : Nat) : Prop :=
  ∀ i a : Nat, (confApicids ph conf)[i]? = some a → a = i

/-- The record that the processor entry `i` is given: `ncpu`, when `mp_init` comes to it. -/
def recordOf (ph : Phys) (conf i : Nat) : Nat :=
  (((confProcs ph conf).take i).foldl (fun s p => mpProc ph p s)
    { MpState.zero with ismp := true }).ncpu

/-- Each processor of the table finds the record that was made for it. -/
structure OwnRecords (ph : Phys) (conf lapic : Nat) (s : MpState) : Prop where
  /-- `cpunum` is the index of its record, and the record is in use. -/
  index : ∀ i a, (confApicids ph conf)[i]? = some a →
    cpunum lapic a = recordOf ph conf i ∧ recordOf ph conf i < s.ncpu
  /-- Whichever of them runs `boot_aps`, the id it passes for a record is that of its processor. -/
  startap : ∀ b ∈ confApicids ph conf, ∀ i a, (confApicids ph conf)[i]? = some a → ∀ id,
    (recordOf ph conf i, id) ∈
      bootAps lapic (confApicids ph conf) b (List.range s.ncpu) s.cpus → id = a
  /-- So no two of them share a record, and none is outside of `cpus`. -/
  apart : ∀ a ∈ confApicids ph conf, ∀ a' ∈ confApicids ph conf,
    cpunum lapic a = cpunum lapic a' → a = a'
  inside : ∀ a ∈ confApicids ph conf, cpunum lapic a < ncpuMax

section Records

variable {ph : Phys} {conf lapic a b i id : Nat} {ids is : List Nat} {cpus : Nat → MpCpu}
  {s : MpState}

theorem cpunum_apicid (hlapic : lapic ≠ 0) (ha : a < 2 ^ 8) : cpunum lapic a = a := by
  rw [cpunum, if_pos hlapic, Nat.shiftLeft_eq, Nat.shiftRight_eq_div_pow]
  omega

theorem confApicids_lt (ha : a ∈ confApicids ph conf) : a < 2 ^ 8 := by
  obtain ⟨p, -, rfl⟩ := List.mem_map.mp ha
  exact (ph (p + 1)).isLt

theorem recordOf_eq (hle : (confApicids ph conf).length ≤ ncpuMax)
    (ha : (confApicids ph conf)[i]? = some a) : recordOf ph conf i = i := by
  have hi := (List.getElem?_eq_some_iff.mp ha).1
  have hncpu := (@procsDone_foldl ph ((confProcs ph conf).take i) 0).ncpu
  rw [List.length_take] at hncpu
  rw [confApicids, List.length_map] at hi hle
  refine hncpu.trans ?_
  omega

theorem mpMain_cpuId (j : Nat) : (mpMain lapic cpus id j).cpuId = (cpus j).cpuId := by
  rw [mpMain]
  by_cases heq : j = cpunum lapic id <;> simp [heq]

/-- The id that is passed is the number of the record. -/
theorem bootAps_id (hid : ∀ j ∈ is, (cpus j).cpuId = j)
    (h : (i, id) ∈ bootAps lapic ids b is cpus) : id = i := by
  induction is generalizing cpus with
  | nil => simp [bootAps] at h
  | cons j is ih =>
      have hrest : ∀ k ∈ is, (cpus k).cpuId = k := fun k hk => hid k (List.mem_cons_of_mem j hk)
      rw [bootAps] at h
      split at h
      · exact ih hrest h
      · have hsame : ∀ k, ((if (cpus j).cpuId ∈ ids then mpMain lapic cpus (cpus j).cpuId
            else cpus) k).cpuId = (cpus k).cpuId := by
          intro k
          split
          · exact mpMain_cpuId k
          · rfl
        dsimp only at h
        generalize (if (cpus j).cpuId ∈ ids then mpMain lapic cpus (cpus j).cpuId else cpus) = cpus'
          at h hsame
        simp only [List.mem_cons, Prod.mk.injEq] at h
        rcases h with ⟨rfl, rfl⟩ | h
        · exact hid i List.mem_cons_self
        · split at h
          · exact ih (fun k hk => (hsame k).trans (hrest k hk)) h
          · cases h

/-- With a local APIC, the ids have to be the numbers of the records. -/
theorem own_records_lapic (hlapic : lapic ≠ 0) (hdone : MpDone ph conf s)
    (hknown : KnownTable ph conf) (hle : (confApicids ph conf).length ≤ ncpuMax) :
    OwnRecords ph conf lapic s ↔ ApicidsInOrder ph conf := by
  have hnum : ∀ a ∈ confApicids ph conf, cpunum lapic a = a := fun a ha =>
    cpunum_apicid hlapic (confApicids_lt ha)
  constructor
  · intro h i a ha
    have hindex := (h.index i a ha).1
    rwa [hnum a (List.mem_of_getElem? ha), recordOf_eq hle ha] at hindex
  · intro horder
    have hncpu : s.ncpu = (confApicids ph conf).length := by
      rw [hdone.known hknown, confApicids, List.length_map]
      rw [confApicids, List.length_map] at hle
      exact Nat.min_eq_left hle
    refine ⟨fun i a ha => ?_, fun b _ i a ha id hid => ?_, fun a ha a' ha' heq => ?_, fun a ha => ?_⟩
    · have hi := (List.getElem?_eq_some_iff.mp ha).1
      rw [recordOf_eq hle ha, hnum a (List.mem_of_getElem? ha), hncpu]
      exact ⟨horder i a ha, hi⟩
    · rw [horder i a ha, ← recordOf_eq hle ha]
      exact bootAps_id (fun j hj => hdone.cpuId j (List.mem_range.mp hj)) hid
    · rwa [hnum a ha, hnum a' ha'] at heq
    · obtain ⟨i, hi⟩ := List.getElem?_of_mem ha
      have hlt := (List.getElem?_eq_some_iff.mp hi).1
      rw [hnum a ha, horder i a hi]
      omega

/-- Without one every processor takes itself for the first, and the table may have no other. -/
theorem own_records_no_lapic (hdone : MpDone ph conf s)
    (hle : (confApicids ph conf).length ≤ ncpuMax) :
    OwnRecords ph conf 0 s ↔ (confApicids ph conf).length ≤ 1 := by
  have hnum : ∀ a, cpunum 0 a = 0 := fun a => if_neg (not_not_intro rfl)
  constructor
  · intro h
    by_contra hlen
    have hindex := (h.index 1 _ (List.getElem?_eq_getElem (by omega))).1
    rw [hnum, recordOf_eq hle (List.getElem?_eq_getElem (by omega))] at hindex
    omega
  · intro hlen
    have hone : ∀ i a, (confApicids ph conf)[i]? = some a → i = 0 ∧ s.ncpu = 1 := by
      intro i a ha
      have hi := (List.getElem?_eq_some_iff.mp ha).1
      refine ⟨by omega, ?_⟩
      by_cases hk : KnownTable ph conf
      · have hncpu := hdone.known hk
        rw [confApicids, List.length_map] at hi hlen
        have hmax : 0 < ncpuMax := by decide
        omega
      · exact hdone.unknown hk
    refine ⟨fun i a ha => ?_, fun b _ i a ha id hid => ?_, fun a ha a' ha' _ => ?_, fun a _ => ?_⟩
    · obtain ⟨rfl, hncpu⟩ := hone i a ha
      rw [recordOf_eq hle ha, hnum, hncpu]
      exact ⟨rfl, Nat.one_pos⟩
    · -- the only record is that of the processor that runs `boot_aps`
      obtain ⟨rfl, hncpu⟩ := hone i a ha
      have hskip : (s.cpus 0).cpuId = cpunum 0 b := by
        rw [hnum, hdone.cpuId 0 (by omega)]
      rw [hncpu, List.range_one, bootAps, if_pos hskip, bootAps] at hid
      cases hid
    · obtain ⟨i, hi⟩ := List.getElem?_of_mem ha
      obtain ⟨j, hj⟩ := List.getElem?_of_mem ha'
      obtain ⟨rfl, -⟩ := hone i a hi
      obtain ⟨rfl, -⟩ := hone j a' hj
      exact Option.some.inj (hi.symm.trans hj)
    · rw [hnum]
      decide

end Records

/-- **When each processor finds its own record.**  If there is a local APIC, the APIC ids of the
table are 0, 1, 2, … in its order; if there is none, because the table has no address for it or an
unknown entry, there is one processor at most. -/
theorem own_records_iff {c : Config} {ram : Nat → Idx → Nat} {m₀ m : Mem} {ph : Phys} {s : MpState}
    {conf : Nat} (hmem : memInit c ram = .ok m₀) (hconf : mpconfig c ph = .ok (some conf))
    (hmp : mpInit c ph = .ok s) (haddr : c.lapicaddr = s.lapicaddr)
    (hlapic : lapicInit c m₀ = .ok (c.lapic, m)) (hle : (confApicids ph conf).length ≤ ncpuMax) :
    OwnRecords ph conf c.lapic s ↔
      FindsLapic c ph ∧ ApicidsInOrder ph conf ∨
      ¬ FindsLapic c ph ∧ (confApicids ph conf).length ≤ 1 := by
  obtain ⟨l₀, h₀, -⟩ := memInit_inv hmem
  obtain ⟨hva, -⟩ := lapicInit_inv h₀ hlapic
  have hdone := mpInit_done hconf hmp
  have hfinds := mpInit_lapicaddr hmp
  rw [← haddr] at hfinds
  by_cases hzero : c.lapicaddr = 0
  · have hnot : ¬ FindsLapic c ph := fun h => hfinds.mpr h hzero
    rw [hva, lapicVa, if_pos hzero, own_records_no_lapic hdone hle]
    simp [hnot]
  · have hyes : FindsLapic c ph := hfinds.mp hzero
    obtain ⟨conf', hconf', -, hknown⟩ := hyes
    obtain rfl := Option.some.inj (Except.ok.inj (hconf.symm.trans hconf'))
    have hne : c.lapic ≠ 0 := by
      rw [hva, lapicVa, if_neg hzero]
      decide
    rw [own_records_lapic hne hdone hknown hle]
    simp [hfinds.mp hzero]

/-- The machine with four megabytes, booted with a table of two processors. -/
theorem exists_boot_two (id₀ id₁ : BitVec 8)
    (hmp : (mpInit .small (.twoCpus id₀ id₁)).toOption.map MpState.lapicaddr = some 0xFEE00000) :
    ∃ m₀ s m, memInit .small (fun _ _ => 0) = .ok m₀ ∧ mpInit .small (.twoCpus id₀ id₁) = .ok s ∧
      Config.small.lapicaddr = s.lapicaddr ∧ lapicInit .small m₀ = .ok (Config.small.lapic, m) := by
  obtain ⟨m₀, m, -, -, -, -, hmem, hlapic, -⟩ :=
    exists_first_task none aligned_small (by decide) (by rw [length_initList_small]; decide)
  obtain ⟨s, hs, haddr⟩ := exists_mpInit hmp
  exact ⟨m₀, s, m, hmem, hs, haddr, hlapic⟩

/-- APIC ids 0 and 1. -/
theorem own_records_in_order :
    ∃ m₀ s m, memInit .small (fun _ _ => 0) = .ok m₀ ∧ mpInit .small (.twoCpus 0 1) = .ok s ∧
      lapicInit .small m₀ = .ok (Config.small.lapic, m) ∧
      OwnRecords (.twoCpus 0 1) 0x9FC10 Config.small.lapic s := by
  obtain ⟨m₀, s, m, hmem, hs, haddr, hlapic⟩ := exists_boot_two 0 1 (by decide +kernel)
  obtain ⟨hconf, hknown, hprocs⟩ := mpconfig_twoCpus
  have hids : confApicids (.twoCpus 0 1) 0x9FC10 = [0, 1] := by
    rw [confApicids, hprocs]
    decide +kernel
  refine ⟨m₀, s, m, hmem, hs, hlapic, (own_records_iff hmem hconf hs haddr hlapic ?_).mpr
    (Or.inl ⟨(mpInit_lapicaddr hs).mp (haddr ▸ by decide), fun i a ha => ?_⟩)⟩
  · rw [hids]
    decide
  · rw [hids] at ha
    rcases i with _ | _ | i
    · exact (Option.some.inj ha).symm
    · exact (Option.some.inj ha).symm
    · cases ha

/-- APIC ids 0 and 4: the second processor takes itself for number 4, of which there is no record,
and `boot_aps` tries to start a processor with id 1. -/
theorem own_records_out_of_order :
    ∃ m₀ s m conf, memInit .small (fun _ _ => 0) = .ok m₀ ∧
      mpconfig .small (.twoCpus 0 4) = .ok (some conf) ∧
      mpInit .small (.twoCpus 0 4) = .ok s ∧ Config.small.lapicaddr = s.lapicaddr ∧
      lapicInit .small m₀ = .ok (Config.small.lapic, m) ∧
      confApicids (.twoCpus 0 4) conf = [0, 4] ∧ s.ncpu = 2 ∧ cpunum Config.small.lapic 4 = 4 ∧
      (1, 1) ∈ bootAps Config.small.lapic [0, 4] 0 (List.range s.ncpu) s.cpus ∧
      ¬ OwnRecords (.twoCpus 0 4) conf Config.small.lapic s := by
  obtain ⟨m₀, s, m, hmem, hs, haddr, hlapic⟩ := exists_boot_two 0 4 (by decide +kernel)
  have hids : confApicids (.twoCpus 0 4) 0x9FC10 = [0, 4] := by decide +kernel
  have heval : ((mpInit .small (.twoCpus 0 4)).toOption.map fun s =>
      (s.ncpu, bootAps Config.small.lapic [0, 4] 0 (List.range s.ncpu) s.cpus)) =
        some (2, [(1, 1)]) := by decide +kernel
  rw [hs] at heval
  obtain ⟨hncpu, hcalls⟩ := Prod.mk.inj (Option.some.inj heval)
  have hnum : cpunum Config.small.lapic 4 = 4 := by decide
  refine ⟨m₀, s, m, 0x9FC10, hmem, mpconfig_of_toOption (by decide +kernel), hs, haddr, hlapic, hids,
    hncpu, hnum, ?_, fun h => ?_⟩
  · rw [hcalls]
    exact List.mem_singleton_self _
  · have hsecond : (confApicids (.twoCpus 0 4) 0x9FC10)[1]? = some 4 := by rw [hids]; rfl
    have hindex := (h.index 1 4 hsecond).1
    rw [hnum, recordOf_eq (by rw [hids]; decide) hsecond] at hindex
    cases hindex

end Nctuos
