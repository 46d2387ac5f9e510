import Jos.Kern.BigLock
import Jos.Lib.ByteMem

/-!
# The multiprocessor table

`mpsearch`, `mpconfig` and `mp_init` of `kern/mpconfig.c`. The memory is the physical memory, and a
pointer is the physical address it stands for; the result is `none` where `KADDR` panics. A pointer into
`cpus` is an index, which may lie behind the end of the array. The entries that are read are recorded.

The loop of `mp_init` runs for as many entries as the header says. Neither the length of the table nor
`NCPU` bounds what it does: an entry may lie behind the bytes that `mpconfig` has summed up, and the
processor with the boot flag may be one for which there is no place.

Main results:
* `mp_init_bounds_iff`: the tables for which `mp_init` keeps to its bounds;
* `tables_out_of_bounds`: two for which it does not.
-/

namespace Jos.Kern

open Jos.Lib

def ncpuMax : Nat := 8

/-- `KADDR` with `npages` pages of memory. -/
def kaddrOf (npages pa : Nat) : Option Nat := if pa / 4096 < npages then some pa else none

def mpRead16 (m : Mem) (a : Nat) : Nat := (m (a + 1) ++ m a : BitVec 16).toNat

/-- `sum` -/
def mpSum (m : Mem) (a len : Nat) : BitVec 8 := (List.range len).foldl (fun s i => s + m (a + i)) 0#8

/-! ## The fields of `struct mp` and `struct mpconf` -/

def mpPhysaddr (m : Mem) (mp : Nat) : Nat := (m.read32 (mp + 4)).toNat
def mpType (m : Mem) (mp : Nat) : BitVec 8 := m (mp + 11)
def mpImcrp (m : Mem) (mp : Nat) : BitVec 8 := m (mp + 12)

def confLength (m : Mem) (conf : Nat) : Nat := mpRead16 m (conf + 4)
def confVersion (m : Mem) (conf : Nat) : BitVec 8 := m (conf + 6)
def confEntry (m : Mem) (conf : Nat) : Nat := mpRead16 m (conf + 34)
def confLapicaddr (m : Mem) (conf : Nat) : BitVec 32 := m.read32 (conf + 36)
def confXlength (m : Mem) (conf : Nat) : Nat := mpRead16 m (conf + 40)
def confXchecksum (m : Mem) (conf : Nat) : BitVec 8 := m (conf + 42)
/-- `conf->entries` -/
def confEntries (conf : Nat) : Nat := conf + 44

/-- The flags of the processor entry at `p`. -/
def procFlags (m : Mem) (p : Nat) : BitVec 8 := m (p + 3)
def mpprocBoot : BitVec 8 := 2#8

/-! ## Search -/

/-- The loop of `mpsearch1` from `mp` on, for `n` more structures. The signature is `_MP_`. -/
def mpScan (m : Mem) : Nat → Nat → Option Nat
  | 0, _ => none
  | n + 1, mp =>
      if m.read32 mp = 0x5F504D5F#32 ∧ mpSum m mp 16 = 0#8 then some mp else mpScan m n (mp + 16)

/-- `mpsearch1` -/
def mpsearch1 (npages : Nat) (m : Mem) (a len : Nat) : Option (Option Nat) := do
  let mp ← kaddrOf npages a
  let ending ← kaddrOf npages ((a + len) % 2 ^ 32)
  some (mpScan m ((ending - mp + 15) / 16) mp)

/-- `mpsearch` -/
def mpsearch (npages : Nat) (m : Mem) : Option (Option Nat) := do
  let bda ← kaddrOf npages 0x400
  let p := mpRead16 m (bda + 0x0E)
  let r ←
    if p ≠ 0 then mpsearch1 npages m (16 * p) 1024
    else mpsearch1 npages m ((1024 * mpRead16 m (bda + 0x13) + (2 ^ 32 - 1024)) % 2 ^ 32) 1024
  match r with
  | some mp => some (some mp)
  | none => mpsearch1 npages m 0xF0000 0x10000

/-- `mpconfig`: the structures `mp` and `conf`. The signature is `PCMP`. -/
def mpconfig (npages : Nat) (m : Mem) : Option (Option (Nat × Nat)) := do
  match ← mpsearch npages m with
  | none => some none
  | some mp =>
      if mpPhysaddr m mp = 0 ∨ mpType m mp ≠ 0#8 then some none
      else
        let conf ← kaddrOf npages (mpPhysaddr m mp)
        if m.read32 conf ≠ 0x504D4350#32 then some none
        else if mpSum m conf (confLength m conf) ≠ 0#8 then some none
        else if confVersion m conf ≠ 1#8 ∧ confVersion m conf ≠ 4#8 then some none
        else if mpSum m (conf + confLength m conf) (confXlength m conf) + confXchecksum m conf ≠ 0#8 then
          some none
        else some (some (mp, conf))

/-! ## `mp_init` -/

/-- The variables that `mp_init` sets. -/
structure MpInfo where
  ismp : Bool
  ncpu : Nat
  lapicaddr : BitVec 32
  /-- `bootcpu` is `&cpus[bootcpu]`. -/
  bootcpu : Nat
  cpuId : Nat → BitVec 8
  cpuStatus : Nat → CpuStatus
  /-- The interrupt mode register was set. -/
  imcr : Bool
  /-- The entries that were read: address and size. -/
  read : List (Nat × Nat)

/-- The variables before `mp_init`, with `bootcpu = &cpus[0]`. -/
def MpInfo.boot : MpInfo where
  ismp := false
  ncpu := 0
  lapicaddr := 0#32
  bootcpu := 0
  cpuId := fun _ => 0#8
  cpuStatus := fun _ => .unused
  imcr := false
  read := []

/-- `case MPPROC`, for an entry with these flags. -/
def MpInfo.proc (s : MpInfo) (flags : BitVec 8) : MpInfo :=
  let s := if flags &&& mpprocBoot ≠ 0#8 then { s with bootcpu := s.ncpu } else s
  if s.ncpu < ncpuMax then
    { s with cpuId := Function.update s.cpuId s.ncpu (BitVec.ofNat 8 s.ncpu), ncpu := s.ncpu + 1 }
  else s

/-- The loop over the entries: `n` more entries, the next one at `p`. -/
def mpEntries (m : Mem) : Nat → Nat → MpInfo → MpInfo
  | 0, _, s => s
  | n + 1, p, s =>
      if m p = 0#8 then
        mpEntries m n (p + 20) ({ s with read := (p, 20) :: s.read }.proc (procFlags m p))
      else if m p ≤ 4#8 then mpEntries m n (p + 8) { s with read := (p, 8) :: s.read }
      else { s with ismp := false, read := (p, 1) :: s.read }

/-- `mp_init` -/
def mpInit (npages : Nat) (m : Mem) : Option MpInfo := do
  match ← mpconfig npages m with
  | none => some .boot
  | some (mp, conf) =>
      let s := { MpInfo.boot with ismp := true, lapicaddr := confLapicaddr m conf }
      let s := mpEntries m (confEntry m conf) (confEntries conf) s
      let s := { s with cpuStatus := Function.update s.cpuStatus s.bootcpu .started }
      if s.ismp = false then some { s with ncpu := 1, lapicaddr := 0#32 }
      else some { s with imcr := decide (mpImcrp m mp ≠ 0#8) }

/-! ## The entries of a table -/

/-- The size of an entry of type `t`. -/
def mpEntrySize (t : BitVec 8) : Option Nat :=
  if t = 0#8 then some 20 else if t ≤ 4#8 then some 8 else none

/-- The address of entry `i` of the entries at `p`, if the entries before it have known types. -/
def mpEntryAt (m : Mem) : Nat → Nat → Option Nat
  | p, 0 => some p
  | p, i + 1 => (mpEntrySize (m p)).bind fun size => mpEntryAt m (p + size) i

/-- The number of processors among the first `i` entries at `p`. -/
def mpProcsBefore (m : Mem) : Nat → Nat → Nat
  | _, 0 => 0
  | p, i + 1 =>
      (if m p = 0#8 then 1 else 0) +
        (mpEntrySize (m p)).elim 0 fun size => mpProcsBefore m (p + size) i

/-- The entries up to the first of unknown type, with the type byte of that one, lie in the bytes that
`length` counts. -/
def MpInside (m : Mem) (conf : Nat) : Prop :=
  ∀ i < confEntry m conf, ∀ q, mpEntryAt m (confEntries conf) i = some q →
    q + (mpEntrySize (m q)).getD 1 ≤ conf + confLength m conf

/-- A processor with the boot flag is among the first `NCPU`. -/
def MpBootFits (m : Mem) (conf : Nat) : Prop :=
  ∀ i < confEntry m conf, ∀ q, mpEntryAt m (confEntries conf) i = some q → m q = 0#8 →
    procFlags m q &&& mpprocBoot ≠ 0#8 → mpProcsBefore m (confEntries conf) i < ncpuMax

/-! ## The loop -/

section

variable {m : Mem} {n p npages mp conf : Nat} {s : MpInfo}

theorem mpEntrySize_proc (h : m p = 0#8) : mpEntrySize (m p) = some 20 := by
  unfold mpEntrySize
  rw [if_pos h]

theorem mpEntrySize_other (h : m p ≠ 0#8) (h' : m p ≤ 4#8) : mpEntrySize (m p) = some 8 := by
  unfold mpEntrySize
  rw [if_neg h, if_pos h']

theorem mpEntrySize_unknown (h : m p ≠ 0#8) (h' : ¬ m p ≤ 4#8) : mpEntrySize (m p) = none := by
  unfold mpEntrySize
  rw [if_neg h, if_neg h']

theorem mpProcsBefore_proc (h : m p = 0#8) (i : Nat) :
    mpProcsBefore m p (i + 1) = 1 + mpProcsBefore m (p + 20) i := by
  rw [mpProcsBefore, if_pos h, mpEntrySize_proc h]
  rfl

theorem mpProcsBefore_other (h : m p ≠ 0#8) (h' : m p ≤ 4#8) (i : Nat) :
    mpProcsBefore m p (i + 1) = mpProcsBefore m (p + 8) i := by
  rw [mpProcsBefore, if_neg h, mpEntrySize_other h h', Nat.zero_add]
  rfl

/-- The first entry, and those after it if its type is known. -/
theorem forall_mpEntryAt_succ (P : Nat → Nat → Prop) :
    (∀ i < n + 1, ∀ q, mpEntryAt m p i = some q → P i q) ↔
      P 0 p ∧ ∀ size, mpEntrySize (m p) = some size →
        ∀ i < n, ∀ q, mpEntryAt m (p + size) i = some q → P (i + 1) q := by
  constructor
  · intro h
    refine ⟨h 0 (Nat.succ_pos n) p rfl, ?_⟩
    intro size hsize i hi q hq
    refine h (i + 1) (Nat.succ_lt_succ hi) q ?_
    unfold mpEntryAt
    rw [hsize]
    exact hq
  · rintro ⟨hfirst, hrest⟩ i hi q hq
    cases i with
    | zero =>
        cases hq
        exact hfirst
    | succ i =>
        obtain ⟨size, hsize, hq'⟩ := Option.bind_eq_some_iff.mp hq
        exact hrest size hsize i (Nat.lt_of_succ_lt_succ hi) q hq'

theorem le_of_mpEntryAt {i q : Nat} (h : mpEntryAt m p i = some q) : p ≤ q := by
  induction i generalizing p with
  | zero =>
      cases h
      exact Nat.le_refl _
  | succ i ih =>
      obtain ⟨size, -, hq⟩ := Option.bind_eq_some_iff.mp h
      exact Nat.le_trans (Nat.le_add_right p size) (ih hq)

/-- What the loop keeps: the first `ncpu` places of `cpus` are filled in. -/
structure MpInfo.Counted (s : MpInfo) : Prop where
  ncpu : s.ncpu ≤ ncpuMax
  cpuId : ∀ i < s.ncpu, s.cpuId i = BitVec.ofNat 8 i
  first : s.cpuId 0 = 0#8

/-- The fields after a processor entry. -/
theorem proc_eq (s : MpInfo) (flags : BitVec 8) : s.proc flags = { s with
    bootcpu := if flags &&& mpprocBoot ≠ 0#8 then s.ncpu else s.bootcpu
    cpuId := if s.ncpu < ncpuMax then Function.update s.cpuId s.ncpu (BitVec.ofNat 8 s.ncpu) else s.cpuId
    ncpu := if s.ncpu < ncpuMax then s.ncpu + 1 else s.ncpu } := by
  unfold MpInfo.proc
  by_cases hboot : flags &&& mpprocBoot ≠ 0#8
  · by_cases hlt : s.ncpu < ncpuMax
    · simp [hboot, hlt]
    · simp [hboot, hlt]
  · by_cases hlt : s.ncpu < ncpuMax
    · simp [hboot, hlt]
    · simp [hboot, hlt]

theorem MpInfo.Counted.proc (h : s.Counted) (flags : BitVec 8) : (s.proc flags).Counted := by
  rw [proc_eq]
  by_cases hlt : s.ncpu < ncpuMax
  · refine ⟨?_, ?_, ?_⟩
    · simp only [if_pos hlt]
      exact hlt
    · intro i hi
      simp only [if_pos hlt] at hi ⊢
      by_cases heq : i = s.ncpu
      · rw [heq, Function.update_self]
      · rw [Function.update_of_ne heq]
        exact h.cpuId i (by omega)
    · simp only [if_pos hlt]
      by_cases heq : 0 = s.ncpu
      · rw [← heq, Function.update_self]
      · rw [Function.update_of_ne heq]
        exact h.first
  · simp only [if_neg hlt]
    exact ⟨h.ncpu, h.cpuId, h.first⟩

/-- The record of what was read does not matter. -/
theorem MpInfo.Counted.reading (h : s.Counted) (l : List (Nat × Nat)) : { s with read := l }.Counted :=
  ⟨h.ncpu, h.cpuId, h.first⟩

theorem MpInfo.Counted.entries (h : s.Counted) : (mpEntries m n p s).Counted := by
  induction n generalizing p s with
  | zero => exact h
  | succ n ih =>
      unfold mpEntries
      split
      · exact ih ((h.reading _).proc _)
      · split
        · exact ih (h.reading _)
        · exact ⟨h.ncpu, h.cpuId, h.first⟩

/-- The entries read are those of the table up to the first of unknown type. -/
theorem mpEntries_read (P : Nat → Nat → Prop) :
    (∀ e ∈ (mpEntries m n p s).read, P e.1 e.2) ↔
      (∀ e ∈ s.read, P e.1 e.2) ∧
        ∀ i < n, ∀ q, mpEntryAt m p i = some q → P q ((mpEntrySize (m q)).getD 1) := by
  induction n generalizing p s with
  | zero =>
      unfold mpEntries
      exact ⟨fun h => ⟨h, fun i hi => absurd hi (Nat.not_lt_zero i)⟩, fun h => h.1⟩
  | succ n ih =>
      rw [forall_mpEntryAt_succ fun _ q => P q ((mpEntrySize (m q)).getD 1)]
      unfold mpEntries
      split
      · rename_i htype
        rw [ih, mpEntrySize_proc htype, proc_eq]
        simp only [List.forall_mem_cons, Option.some.injEq, forall_eq', Option.getD_some]
        tauto
      · rename_i htype
        split
        · rename_i hle
          rw [ih, mpEntrySize_other htype hle]
          simp only [List.forall_mem_cons, Option.some.injEq, forall_eq', Option.getD_some]
          tauto
        · rename_i hle
          rw [mpEntrySize_unknown htype hle]
          simp only [List.forall_mem_cons, reduceCtorEq, false_implies, implies_true, and_true,
            Option.getD_none]
          tauto

/-- `bootcpu` ends behind the array when a processor with the boot flag comes when the array is full,
and it stays there. -/
theorem mpEntries_bootcpu (hn : s.ncpu ≤ ncpuMax) (hb : ncpuMax ≤ s.bootcpu → s.ncpu = ncpuMax) :
    (mpEntries m n p s).bootcpu < ncpuMax ↔
      s.bootcpu < ncpuMax ∧
        ∀ i < n, ∀ q, mpEntryAt m p i = some q → m q = 0#8 → procFlags m q &&& mpprocBoot ≠ 0#8 →
          s.ncpu + mpProcsBefore m p i < ncpuMax := by
  induction n generalizing p s with
  | zero =>
      unfold mpEntries
      exact ⟨fun h => ⟨h, fun i hi => absurd hi (Nat.not_lt_zero i)⟩, fun h => h.1⟩
  | succ n ih =>
      rw [forall_mpEntryAt_succ fun i q => m q = 0#8 → procFlags m q &&& mpprocBoot ≠ 0#8 →
        s.ncpu + mpProcsBefore m p i < ncpuMax]
      have hzero : mpProcsBefore m p 0 = 0 := rfl
      unfold mpEntries
      split
      · rename_i htype
        simp only [mpEntrySize_proc htype, mpProcsBefore_proc htype, Option.some.injEq, forall_eq', hzero,
          Nat.add_zero]
        by_cases hlt : s.ncpu < ncpuMax
        · -- There is a place for the processor, so that `bootcpu` is in the array before and after.
          have hbefore : s.bootcpu < ncpuMax := Nat.lt_of_not_le fun hle => by
            have := hb hle
            omega
          rw [ih]
          · rw [proc_eq]
            simp only [if_pos hlt, Nat.add_assoc]
            have hafter : (if procFlags m p &&& mpprocBoot ≠ 0#8 then s.ncpu else s.bootcpu) < ncpuMax := by
              split
              · exact hlt
              · exact hbefore
            exact ⟨fun h => ⟨hbefore, fun _ _ => hlt, h.2⟩, fun h => ⟨hafter, h.2.2⟩⟩
          · rw [proc_eq]
            simp only [if_pos hlt]
            exact hlt
          · rw [proc_eq]
            simp only
            intro hle
            split at hle
            · omega
            · omega
        · -- The array is full: a processor with the boot flag sets `bootcpu` behind it.
          have hfull : s.ncpu = ncpuMax := by omega
          rw [ih]
          · rw [proc_eq]
            simp only [if_neg hlt]
            have htail : ∀ x, s.ncpu + (1 + x) < ncpuMax ↔ s.ncpu + x < ncpuMax := by omega
            simp only [htail]
            by_cases hboot : procFlags m p &&& mpprocBoot ≠ 0#8
            · rw [if_pos hboot]
              exact ⟨fun h => absurd h.1 hlt, fun h => absurd (h.2.1 htype hboot) hlt⟩
            · rw [if_neg hboot]
              exact ⟨fun h => ⟨h.1, fun _ hset => absurd hset hboot, h.2⟩, fun h => ⟨h.1, h.2.2⟩⟩
          · rw [proc_eq]
            simp only [if_neg hlt]
            exact hn
          · rw [proc_eq]
            simp only [if_neg hlt]
            intro _
            exact hfull
      · rename_i htype
        split
        · rename_i hle
          simp only [mpEntrySize_other htype hle, mpProcsBefore_other htype hle, Option.some.injEq, forall_eq']
          rw [ih (s := { s with read := (p, 8) :: s.read }) hn hb]
          exact ⟨fun h => ⟨h.1, fun h0 => absurd h0 htype, h.2⟩, fun h => ⟨h.1, h.2.2⟩⟩
        · rename_i hle
          simp only [mpEntrySize_unknown htype hle, reduceCtorEq, false_implies, implies_true, and_true]
          exact ⟨fun h => ⟨h, fun h0 => absurd h0 htype⟩, fun h => h.1⟩

/-! ## The bounds of `mp_init` -/

/-- The bounds of a table at `conf` after `mp_init`. -/
structure MpBounds (m : Mem) (conf : Nat) (s : MpInfo) : Prop where
  ncpu : s.ncpu ≤ ncpuMax
  cpuId : ∀ i < s.ncpu, s.cpuId i = BitVec.ofNat 8 i
  bootcpu : s.bootcpu < ncpuMax
  read : ∀ e ∈ s.read, conf ≤ e.1 ∧ e.1 + e.2 ≤ conf + confLength m conf

/-- What `mp_init` returns for a table that `mpconfig` accepts. -/
theorem mpInit_accepted (h : mpconfig npages m = some (some (mp, conf))) :
    ∃ s, mpInit npages m = some s ∧ s.ncpu ≤ ncpuMax ∧ (∀ i < s.ncpu, s.cpuId i = BitVec.ofNat 8 i) ∧
      (s.bootcpu < ncpuMax ↔ MpBootFits m conf) ∧
      ((∀ e ∈ s.read, conf ≤ e.1 ∧ e.1 + e.2 ≤ conf + confLength m conf) ↔ MpInside m conf) := by
  let s₀ : MpInfo := { MpInfo.boot with ismp := true, lapicaddr := confLapicaddr m conf }
  let s₁ : MpInfo := mpEntries m (confEntry m conf) (confEntries conf) s₀
  have hcounted : s₁.Counted := MpInfo.Counted.entries
    ⟨Nat.zero_le _, fun i hi => absurd hi (Nat.not_lt_zero i), rfl⟩
  have hboot : s₁.bootcpu < ncpuMax ↔ MpBootFits m conf := by
    have hcases := mpEntries_bootcpu (m := m) (n := confEntry m conf) (p := confEntries conf) (s := s₀)
      (Nat.zero_le _) fun hle => absurd hle (by decide : ¬ ncpuMax ≤ 0)
    rw [hcases]
    unfold MpBootFits
    have hzero : ∀ x, s₀.ncpu + x = x := Nat.zero_add
    simp only [hzero]
    exact ⟨fun h => h.2, fun h => ⟨(by decide : 0 < ncpuMax), h⟩⟩
  have hread : (∀ e ∈ s₁.read, conf ≤ e.1 ∧ e.1 + e.2 ≤ conf + confLength m conf) ↔ MpInside m conf := by
    have hcases := mpEntries_read (m := m) (n := confEntry m conf) (p := confEntries conf) (s := s₀)
      fun a size => conf ≤ a ∧ a + size ≤ conf + confLength m conf
    rw [hcases]
    constructor
    · intro h i hi q hq
      exact (h.2 i hi q hq).2
    · intro h
      refine ⟨fun e he => absurd he (List.not_mem_nil), fun i hi q hq => ⟨?_, h i hi q hq⟩⟩
      exact Nat.le_trans (Nat.le_add_right conf 44) (le_of_mpEntryAt hq)
  unfold mpInit
  rw [h]
  simp only [Option.bind_eq_bind, Option.bind_some]
  split
  · refine ⟨_, rfl, (by decide : 1 ≤ ncpuMax), ?_, hboot, hread⟩
    intro i hi
    have hi' : i = 0 := Nat.lt_one_iff.mp hi
    rw [hi']
    exact hcounted.first
  · exact ⟨_, rfl, hcounted.ncpu, hcounted.cpuId, hboot, hread⟩

end

/-! ## Concrete tables -/

/-- A processor entry with these flags. -/
def procEntry (flags : BitVec 8) : List (BitVec 8) := [0#8, 0#8, 0#8, flags] ++ List.replicate 16 0#8

/-- A memory with the floating pointer in the EBDA and behind it a table of processors. -/
def procTable (length entry checksum : BitVec 8) (procs : List (BitVec 8)) : Mem :=
  ((Mem.store (fun _ => 0#8) 0x40E [0xC0#8, 0x9F#8]).store 0x9FC00
    [0x5F#8, 0x4D#8, 0x50#8, 0x5F#8, 0x10#8, 0xFC#8, 0x09#8, 0#8, 1#8, 4#8, 0x8B#8, 0#8, 0#8, 0#8, 0#8,
      0#8]).store 0x9FC10
    ([0x50#8, 0x43#8, 0x4D#8, 0x50#8, length, 0#8, 4#8, checksum] ++ List.replicate 26 0#8 ++
      [entry, 0#8, 0#8, 0#8, 0xE0#8, 0xFE#8, 0#8, 0#8, 0#8, 0#8] ++ procs.flatMap procEntry)

/-- Nine processors, the last one with the boot flag. -/
def nineProcs : Mem := procTable 224#8 9#8 0xFA#8 [1#8, 1#8, 1#8, 1#8, 1#8, 1#8, 1#8, 1#8, 3#8]

/-- One entry, and no bytes for it. -/
def noBytes : Mem := procTable 44#8 1#8 0xC1#8 []

/-- Two processors, the first one with the boot flag. -/
def twoProcs : Mem := procTable 84#8 2#8 0x94#8 [3#8, 1#8]

/-! ## When the bounds are kept -/

/-- `mp_init` keeps to its bounds exactly for the tables whose entries lie in the bytes that were summed
up, and that have no processor with the boot flag after `NCPU` others. -/
theorem mp_init_bounds_iff (npages : Nat) (m : Mem) (mp conf : Nat)
    (h : mpconfig npages m = some (some (mp, conf))) :
    (∃ s, mpInit npages m = some s ∧ MpBounds m conf s) ↔ MpInside m conf ∧ MpBootFits m conf := by
  obtain ⟨s, hrun, hncpu, hid, hboot, hread⟩ := mpInit_accepted h
  constructor
  · rintro ⟨s', hrun', hbounds⟩
    rw [hrun] at hrun'
    cases hrun'
    exact ⟨hread.mp hbounds.read, hboot.mp hbounds.bootcpu⟩
  · intro hcond
    exact ⟨s, hrun, hncpu, hid, hboot.mpr hcond.2, hread.mpr hcond.1⟩

/-- `bootcpu` is `&cpus[8]` for the first table; the entry of the second one lies behind its 44 bytes. -/
theorem tables_out_of_bounds :
    (mpconfig 256 nineProcs = some (some (0x9FC00, 0x9FC10)) ∧
      ¬ ∃ s, mpInit 256 nineProcs = some s ∧ MpBounds nineProcs 0x9FC10 s) ∧
    (mpconfig 256 noBytes = some (some (0x9FC00, 0x9FC10)) ∧
      ¬ ∃ s, mpInit 256 noBytes = some s ∧ MpBounds noBytes 0x9FC10 s) := by
  have hboot : (mpInit 256 nineProcs).map (fun s => s.bootcpu) = some 8 := by decide +kernel
  have hread : (mpInit 256 noBytes).map (fun s => s.read) = some [(0x9FC3C, 20)] := by decide +kernel
  have hlength : confLength noBytes 0x9FC10 = 44 := by decide +kernel
  refine ⟨⟨by decide +kernel, ?_⟩, ⟨by decide +kernel, ?_⟩⟩
  · rintro ⟨s, hrun, hbounds⟩
    rw [hrun] at hboot
    have heq : s.bootcpu = 8 := Option.some.inj hboot
    have hlt := hbounds.bootcpu
    rw [heq] at hlt
    exact absurd hlt (by decide)
  · rintro ⟨s, hrun, hbounds⟩
    rw [hrun] at hread
    have heq : s.read = [(0x9FC3C, 20)] := Option.some.inj hread
    have hle := (hbounds.read (0x9FC3C, 20) (by rw [heq]; exact List.mem_singleton_self _)).2
    rw [hlength] at hle
    exact absurd hle (by decide)

theorem mp_init_bounds_iff_twoProcs : ∃ s, mpInit 256 twoProcs = some s ∧ MpBounds twoProcs 0x9FC10 s := by
  have hcount : confEntry twoProcs 0x9FC10 = 2 := by decide +kernel
  have hlength : confLength twoProcs 0x9FC10 = 84 := by decide +kernel
  have hfirst : mpEntryAt twoProcs (confEntries 0x9FC10) 0 = some 0x9FC3C := rfl
  have hsecond : mpEntryAt twoProcs (confEntries 0x9FC10) 1 = some 0x9FC50 := by decide +kernel
  have hsizes : mpEntrySize (twoProcs 0x9FC3C) = some 20 ∧ mpEntrySize (twoProcs 0x9FC50) = some 20 := by
    decide +kernel
  refine (mp_init_bounds_iff 256 twoProcs 0x9FC00 0x9FC10 (by decide +kernel)).mpr ⟨?_, ?_⟩
  · intro i hi q hq
    rw [hcount] at hi
    rw [hlength]
    rcases (by omega : i = 0 ∨ i = 1) with rfl | rfl
    · rw [hfirst] at hq
      cases hq
      rw [hsizes.1, Option.getD_some]
      omega
    · rw [hsecond] at hq
      cases hq
      rw [hsizes.2, Option.getD_some]
  · intro i hi q hq _ _
    rw [hcount] at hi
    have hcounts : mpProcsBefore twoProcs (confEntries 0x9FC10) 0 = 0 ∧
        mpProcsBefore twoProcs (confEntries 0x9FC10) 1 = 1 := by decide +kernel
    unfold ncpuMax
    rcases (by omega : i = 0 ∨ i = 1) with rfl | rfl
    · omega
    · omega

end Jos.Kern
