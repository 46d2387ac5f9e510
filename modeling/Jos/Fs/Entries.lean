import Jos.Fs.Offsets
import Jos.Fs.Path

/-!
# What the file system keeps of its directories

`EntriesKept m m'`: the disk stays well formed, every file stays where it is with its type, the
size of a directory stays a multiple of the block size, names stay terminated, and what is new is
an empty entry. Every function of `fs/fs.c` does that, as long as `file_set_size` and `file_write`
are not applied to a directory and nothing is copied outside the blocks of a file.
-/

namespace Jos.Fs

open Jos.Lib

/-- The assertion of `dir_lookup` and `dir_alloc_file`. -/
def Aligned (m : Mem) (f : Nat) : Prop := (fSize m f).srem 4096#32 = 0#32

instance (m : Mem) (f : Nat) : Decidable (Aligned m f) := inferInstanceAs (Decidable (_ = _))

/-- The name in the entry `f` is a string. -/
def NameEnds (m : Mem) (f : Nat) : Prop := ∃ k < maxnamelen, m (f + k) = 0#8

structure EntriesKept (m m' : Mem) : Prop where
  kept : DiskKept m m'
  size : ∀ g, FileAt m g → fType m g = ftypeDir → Aligned m g → Aligned m' g
  name : ∀ g, FileAt m g → NameEnds m g → NameEnds m' g
  new : ∀ g, FileAt m' g → FileAt m g ∨ fType m' g ≠ ftypeDir ∧ NameEnds m' g

section

variable {m m' m1 : Mem} {f g b n i : Nat} {p : Place}

theorem srem_eq_zero_iff (s : BitVec 32) : s.srem 4096#32 = 0#32 ↔ s.toNat % 4096 = 0 := by
  have hint := BitVec.toInt_eq_toNat_cond s
  have hlt := s.isLt
  constructor
  · intro hz
    split at hint
    · have hpos : s.toNat < 2147483648 := by omega
      have hrem := srem_block hpos
      rw [hz] at hrem
      simpa using hrem.symm
    · have hneg : s.toInt < 0 := by omega
      have hrem := toInt_srem_neg hneg
      rw [hz, show (0#32).toInt = 0 from rfl] at hrem
      omega
  · intro hz
    split at hint
    · refine BitVec.eq_of_toNat_eq ?_
      rw [srem_block (by omega), hz]
      rfl
    · refine BitVec.eq_of_toInt_eq ?_
      rw [toInt_srem_neg (by omega), show (0#32).toInt = 0 from rfl]
      omega

theorem EntriesKept.refl (hw : Wf m) : EntriesKept m m :=
  ⟨.refl hw, fun _ _ _ h => h, fun _ _ h => h, fun _ h => Or.inl h⟩

theorem EntriesKept.trans (h : EntriesKept m m1) (h' : EntriesKept m1 m') : EntriesKept m m' := by
  refine ⟨h.kept.trans h'.kept, fun g hg hdir ha => ?_, fun g hg hn => ?_, fun g hg => ?_⟩
  · exact h'.size g (h.kept.files g hg) ((h.kept.type g hg).trans hdir) (h.size g hg hdir ha)
  · exact h'.name g (h.kept.files g hg) (h.name g hg hn)
  · rcases h'.new g hg with hg1 | hnew
    · rcases h.new g hg1 with hg0 | ⟨htype, hname⟩
      · exact Or.inl hg0
      · refine Or.inr ⟨?_, h'.name g hg1 hname⟩
        rw [h'.kept.type g hg1]
        exact htype
    · exact Or.inr hnew

/-! ## Blocks -/

theorem NameEnds.congr (h : NameEnds m g) (heq : ∀ k < maxnamelen, m' (g + k) = m (g + k)) :
    NameEnds m' g := by
  obtain ⟨k, hk, hz⟩ := h
  exact ⟨k, hk, by rw [heq k hk, hz]⟩

/-- A change that leaves the body alone, except for one place, leaves the names alone. -/
theorem name_same (hw : Wf m) (hp : p.Valid m) (hg : FileAt m g)
    (hsame : ∀ a n, InBody m a n → (a + n ≤ p.addr m ∨ p.addr m + 4 ≤ a) →
      ∀ x, a ≤ x → x < a + n → m' x = m x) (k : Nat) (hk : k < maxnamelen) :
    m' (g + k) = m (g + k) := by
  have hhead := hw.header_disjoint hg hp
  have hbody : InBody m g 128 := by
    rcases hw.file_inBody hg with h | ⟨c, h1, h2, h3, h4⟩
    · exact Or.inl (by omega)
    · exact Or.inr ⟨c, h1, h2, h3, by omega⟩
  simp only [maxnamelen] at hk
  exact hsame g 128 hbody (by omega) _ (by omega) (by omega)

theorem Allocated.entriesKept (h : Allocated m p b m') (hw : Wf m) : EntriesKept m m' := by
  refine ⟨⟨h.wf hw, fun _ => h.fileAt hw, (h.edited hw).type⟩, fun g hg _ ha => ?_,
    fun g hg hn => hn.congr (name_same hw h.valid hg fun _ _ ha hd _ => h.same_body hw ha hd),
    fun g hg => ?_⟩
  · rw [Aligned, (h.edited hw).size g hg]
    exact ha
  · rcases h.fileAt_cases hw hg with hg0 | ⟨j, hj, rfl⟩
    · exact Or.inl hg0
    · simp only [blkfiles] at hj
      refine Or.inr ⟨?_, 0, by decide, h.cleared _ (by omega) (by omega)⟩
      rw [fType, h.read_new (by omega) (by omega)]
      decide

theorem Grows.entriesKept (h : Grows f m n m') (hw : Wf m) : EntriesKept m m' := by
  induction h with
  | refl => exact .refl hw
  | step h _ halloc ih => exact ih.trans (halloc.entriesKept (h.wf hw))

theorem fileGetBlock_entriesKept {bno : BitVec 32} {r : Except Int Nat} (hw : Wf m)
    (hf : FileAt m f) (h : fileGetBlock m f bno = some (m', r)) : EntriesKept m m' := by
  by_cases hi : bno.toNat < maxblocks
  · rcases fileGetBlock_cases _ hw hf hi with ⟨_, hnone⟩ | ⟨m1, hsome, hgot⟩
    · rw [hnone] at h
      cases h
    · rw [hsome] at h
      cases h
      exact hgot.grows.entriesKept hw
  · rw [fileGetBlock_large (by omega)] at h
    cases h
    exact .refl hw

theorem Released.entriesKept (h : Released m p b m') (hw : Wf m)
    (hreg : fType m p.file ≠ ftypeDir) : EntriesKept m m' := by
  refine ⟨h.kept hw hreg, fun g hg _ ha => ?_,
    fun g hg hn => hn.congr (name_same hw h.valid hg fun _ _ ha hd _ => h.same_body hw ha hd),
    fun g hg => Or.inl (h.fileAt_of hw hg)⟩
  rw [Aligned, (h.edited hw).size g hg]
  exact ha

/-! ## Changes that move no block -/

theorem Unmoved.entriesKept (h : Unmoved m m') (hw : Wf m)
    (hsize : ∀ g, FileAt m g → fType m g = ftypeDir → Aligned m g → Aligned m' g)
    (hname : ∀ g, FileAt m g → NameEnds m g → NameEnds m' g) : EntriesKept m m' :=
  ⟨h.kept hw, hsize, hname, fun _ hg => Or.inl (h.fileAt_iff.mp hg)⟩

theorem SameDisk.entriesKept (h : SameDisk m m') (hw : Wf m) : EntriesKept m m' := by
  refine (h.unmoved hw).entriesKept hw (fun g hg _ ha => ?_) fun g hg hn => hn.congr fun k hk => ?_
  · rw [Aligned, fSize, h.read32_file hw hg (by decide)]
    exact ha
  · have := (hw.file_inBody hg).in_disk hw
    simp only [maxnamelen] at hk
    exact h _ (by omega) (by omega)

/-- A new size. -/
theorem entriesKept_size (hw : Wf m) (hf : FileAt m f) {s : BitVec 32}
    (hs : fType m f = ftypeDir → Aligned m f → s.srem 4096#32 = 0#32) :
    EntriesKept m (m.write32 (f + 128) s) := by
  refine (unmoved_size hw hf s).entriesKept hw (fun g hg hdir ha => ?_) fun g hg hn =>
    hn.congr fun k hk => ?_
  · rw [Aligned, (rewritten_size hw hf s).size g hg]
    split
    · rename_i heq
      rw [heq] at hdir ha
      exact hs hdir ha
    · exact ha
  · simp only [maxnamelen] at hk
    refine Mem.write32_of_disjoint _ _ ?_
    by_cases heq : g = f
    · omega
    · have := hw.files_disjoint hg hf heq
      omega

/-- A store within one block of a file that is no directory. -/
theorem entriesKept_data {a : Nat} (src : Nat) (hw : Wf m) (hf : FileAt m f)
    (hreg : fType m f ≠ ftypeDir) (hi : i < maxblocks) (hb : blockPtr m f i ≠ 0)
    (ha : blockAddr (blockPtr m f i) ≤ a) (ha' : a + n ≤ blockAddr (blockPtr m f i) + 4096) :
    EntriesKept m (m.move a src n) := by
  obtain ⟨hun, hsize⟩ := unmoved_data src hw hf hreg hi hb ha ha'
  refine hun.entriesKept hw (fun g hg _ hal => ?_) fun g hg hn => hn.congr fun k hk => ?_
  · rw [Aligned, hsize g hg]
    exact hal
  · have := hw.data_file_disjoint hf hreg hi hb hg
    simp only [maxnamelen] at hk
    exact Mem.move_of_disjoint _ (by omega)

/-- A change of the name of `f`. -/
theorem unmoved_name (hw : Wf m) (hf : FileAt m f)
    (hsame : ∀ x, x < f ∨ f + 128 ≤ x → m' x = m x) : Unmoved m m' := by
  have hread : ∀ a, a + 4 ≤ f ∨ f + 128 ≤ a → m'.read32 a = m.read32 a := fun a ha =>
    Mem.read32_congr fun x hx hx' => hsame x (by omega)
  have hbody := hw.file_inBody hf
  refine ⟨?_, fun g hg => ?_, fun q hq => ?_, fun c hc => ?_⟩
  · have := hbody.nblocks_disjoint
    exact hread _ (by omega)
  · refine hread _ ?_
    by_cases heq : g = f
    · omega
    · have := hw.files_disjoint hg hf heq
      omega
  · have := hw.header_disjoint hf hq
    exact hread _ (by omega)
  · have := hbody.bitmap_disjoint hc
    rw [bitSet, hread _ (by omega)]
    rfl

theorem entriesKept_strcpy {name : List (BitVec 8)} (hw : Wf m) (hf : FileAt m f)
    (hname : name.length < maxnamelen) : EntriesKept m (strcpy m f name) := by
  have hsame : ∀ x, x < f ∨ f + 128 ≤ x → strcpy m f name x = m x := by
    intro x hx
    simp only [maxnamelen] at hname
    rw [strcpy, if_neg (by omega)]
  refine (unmoved_name hw hf hsame).entriesKept hw (fun g hg _ ha => ?_) fun g hg hn => ?_
  · have hsize : fSize (strcpy m f name) g = fSize m g := by
      refine Mem.read32_congr fun x hx hx' => hsame x ?_
      by_cases heq : g = f
      · omega
      · have := hw.files_disjoint hg hf heq
        omega
    rw [Aligned, hsize]
    exact ha
  · by_cases heq : g = f
    · subst heq
      refine ⟨name.length, hname, ?_⟩
      rw [strcpy, if_pos (by omega), Nat.add_sub_cancel_left]
      simp
    · have := hw.files_disjoint hg hf heq
      refine hn.congr fun k hk => hsame _ ?_
      simp only [maxnamelen] at hk
      omega

/-! ## Sizes -/

/-- A size that can be given to `f`: any for a file, and for a directory a larger one that is a
multiple of the block size. -/
def SizeOk (m : Mem) (f : Nat) (s : BitVec 32) : Prop :=
  fType m f = ftypeDir → (fSize m f).toInt ≤ s.toInt ∧ s.srem 4096#32 = 0#32

theorem fileTruncateBlocks_entriesKept {s : BitVec 32} (hw : Wf m) (hf : FileAt m f)
    (hreg : fType m f ≠ ftypeDir) (h : fileTruncateBlocks m f s = some m') : EntriesKept m m' := by
  simp only [fileTruncateBlocks, Option.bind_eq_bind, Option.bind_eq_some_iff] at h
  obtain ⟨m1, hloop, h⟩ := h
  have hreg' : ∀ {m2 : Mem}, EntriesKept m m2 → fType m2 f ≠ ftypeDir := by
    intro m2 h2
    rw [h2.kept.type f hf]
    exact hreg
  have h1 : EntriesKept m m1 := by
    refine foldlM_inv (EntriesKept m) ?_ hloop (.refl hw)
    intro bno m2 m3 hstep h2
    obtain ⟨⟨m4, r⟩, hfree, rfl⟩ := Option.map_eq_some_iff.mp hstep
    rcases fileFreeBlock_cases h2.kept.wf (h2.kept.files f hf) hfree with rfl | ⟨p, b, rfl, hrel⟩
    · exact h2
    · exact h2.trans (hrel.entriesKept h2.kept.wf (hreg' h2))
  split at h
  · rename_i hind
    have hv : (Place.indirect f).value m1 ≠ 0 := fun hz => hind.2 (BitVec.eq_of_toNat_eq hz)
    simp only [Option.bind_eq_some_iff] at h
    obtain ⟨m2, hfree, h⟩ := h
    rw [freeBlock, show (indirect m1 f).toNat = (Place.indirect f).value m1 from rfl,
      if_neg hv] at hfree
    cases hfree
    cases h
    exact h1.trans ((released_place h1.kept.wf (p := .indirect f) (h1.kept.files f hf)
      hv).entriesKept h1.kept.wf (hreg' h1))
  · cases h
    exact h1

theorem fileSetSize_entriesKept {s : BitVec 32} (hw : Wf m) (hf : FileAt m f) (hs : SizeOk m f s)
    (h : fileSetSize m f s = some m') : EntriesKept m m' := by
  rw [fileSetSize, BitVec.slt_eq_decide] at h
  simp only [decide_eq_true_eq] at h
  split at h
  · rename_i hlt
    have hreg : fType m f ≠ ftypeDir := fun hdir => by
      have := (hs hdir).1
      omega
    obtain ⟨m1, htrunc, h⟩ := Option.bind_eq_some_iff.mp h
    cases h
    have h1 := fileTruncateBlocks_entriesKept hw hf hreg htrunc
    refine h1.trans (entriesKept_size h1.kept.wf (h1.kept.files f hf) fun hdir _ => ?_)
    rw [h1.kept.type f hf] at hdir
    exact absurd hdir hreg
  · cases h
    exact entriesKept_size hw hf fun hdir _ => (hs hdir).2

/-! ## Directories -/

/-- One thing that the functions on paths and directories do to the disk: take blocks for a
directory, make it a block longer, or set the name of a file. -/
inductive DirStep (m : Mem) : Mem → Prop
  | grows {d n : Nat} {m' : Mem} (hd : FileAt m d) (hdir : fType m d = ftypeDir)
      (h : Grows d m n m') : DirStep m m'
  | longer {d : Nat} (hd : FileAt m d) (hdir : fType m d = ftypeDir) :
      DirStep m (m.write32 (d + 128) (fSize m d + 4096#32))
  | name {f : Nat} {name : List (BitVec 8)} (hf : FileAt m f) (hlen : name.length < maxnamelen) :
      DirStep m (strcpy m f name)

theorem DirStep.entriesKept (h : DirStep m m') (hw : Wf m) : EntriesKept m m' := by
  cases h with
  | grows _ _ h => exact h.entriesKept hw
  | longer hd _ =>
      refine entriesKept_size hw hd fun _ ha => ?_
      rw [Aligned, srem_eq_zero_iff] at ha
      rw [srem_eq_zero_iff, BitVec.toNat_add]
      simp only [BitVec.toNat_ofNat]
      omega
  | name hf hlen => exact entriesKept_strcpy hw hf hlen

/-- A sequence of such steps. -/
def DirSteps : Mem → Mem → Prop := Relation.ReflTransGen DirStep

theorem DirSteps.entriesKept (h : DirSteps m m') (hw : Wf m) : EntriesKept m m' := by
  induction h with
  | refl => exact .refl hw
  | tail _ hstep ih => exact ih.trans (hstep.entriesKept ih.kept.wf)

/-- The memory after such steps, and a file where the result is one. -/
def LeadsTo (m : Mem) (m' : Mem) (r : Except Int Nat) : Prop :=
  DirSteps m m' ∧ ∀ f, r = .ok f → FileAt m' f

theorem LeadsTo.error (h : DirSteps m m') (e : Int) : LeadsTo m m' (.error e) :=
  ⟨h, fun _ hr => by cases hr⟩

theorem LeadsTo.trans {r : Except Int Nat} (h : DirSteps m m1) (h' : LeadsTo m1 m' r) :
    LeadsTo m m' r := ⟨Relation.ReflTransGen.trans h h'.1, h'.2⟩

theorem fileGetBlock_dirSteps {bno : BitVec 32} {r : Except Int Nat} (hw : Wf m) (hf : FileAt m f)
    (hdir : fType m f = ftypeDir) (h : fileGetBlock m f bno = some (m', r)) : DirSteps m m' := by
  by_cases hi : bno.toNat < maxblocks
  · rcases fileGetBlock_cases _ hw hf hi with ⟨_, hnone⟩ | ⟨m1, hsome, hgot⟩
    · rw [hnone] at h
      cases h
    · rw [hsome] at h
      cases h
      exact .single (.grows hf hdir hgot.grows)
  · rw [fileGetBlock_large (by omega)] at h
    cases h
    exact .refl

/-- The entries of a block of a directory are files. -/
theorem fileGetBlock_entry {bno : BitVec 32} {blk j : Nat} (hw : Wf m) (hf : FileAt m f)
    (hdir : fType m f = ftypeDir) (h : fileGetBlock m f bno = some (m', .ok blk))
    (hj : j < blkfiles) : FileAt m' (blk + 256 * j) := by
  by_cases hi : bno.toNat < maxblocks
  · rcases fileGetBlock_cases _ hw hf hi with ⟨_, hnone⟩ | ⟨m1, hsome, hgot⟩
    · rw [hnone] at h
      cases h
    · rw [hsome] at h
      cases h
      refine .entry (hgot.grows.fileAt hw hf) ?_ hi hgot.ptr_ne hj
      rw [hgot.grows.type_eq hw hf]
      exact hdir
  · rw [fileGetBlock_large (by omega)] at h
    cases h

theorem namedEntry_some {blk : Nat} {name : List (BitVec 8)} (h : namedEntry m blk name = some g) :
    ∃ j < blkfiles, g = blk + 256 * j := by
  obtain ⟨j, hj, rfl⟩ := Option.map_eq_some_iff.mp h
  exact ⟨j, List.mem_range.mp (List.mem_of_find?_eq_some hj), rfl⟩

theorem unusedEntry_some {blk : Nat} (h : unusedEntry m blk = some g) :
    ∃ j < blkfiles, g = blk + 256 * j := by
  obtain ⟨j, hj, rfl⟩ := Option.map_eq_some_iff.mp h
  exact ⟨j, List.mem_range.mp (List.mem_of_find?_eq_some hj), rfl⟩

theorem dirLookupLoop_leadsTo {name : List (BitVec 8)} {l : List Nat} {r : Except Int Nat}
    (hw : Wf m) (hf : FileAt m f) (hdir : fType m f = ftypeDir)
    (h : dirLookupLoop f name m l = some (m', r)) : LeadsTo m m' r := by
  induction l generalizing m with
  | nil =>
      cases h
      exact .error .refl _
  | cons i l ih =>
      simp only [dirLookupLoop, Option.bind_eq_bind, Option.bind_eq_some_iff] at h
      obtain ⟨⟨m1, q⟩, hget, h⟩ := h
      have h1 := fileGetBlock_dirSteps hw hf hdir hget
      have hk := (h1.entriesKept hw).kept
      cases q with
      | error e =>
          cases h
          exact .error h1 _
      | ok blk =>
          simp only at h
          split at h
          · rename_i g hentry
            cases h
            refine ⟨h1, fun x hx => ?_⟩
            cases hx
            obtain ⟨j, hj, rfl⟩ := namedEntry_some hentry
            exact fileGetBlock_entry hw hf hdir hget hj
          · exact .trans h1 (ih hk.wf (hk.files f hf) ((hk.type f hf).trans hdir) h)

theorem dirLookup_leadsTo {name : List (BitVec 8)} {r : Except Int Nat} (hw : Wf m)
    (hf : FileAt m f) (hdir : fType m f = ftypeDir) (h : dirLookup m f name = some (m', r)) :
    LeadsTo m m' r := by
  rw [dirLookup] at h
  split at h
  · cases h
  · exact dirLookupLoop_leadsTo hw hf hdir h

theorem dirAllocLoop_leadsTo {l : List Nat} {r : Option (Except Int Nat)} (hw : Wf m)
    (hf : FileAt m f) (hdir : fType m f = ftypeDir) (h : dirAllocLoop f m l = some (m', r)) :
    DirSteps m m' ∧ ∀ q, r = some q → LeadsTo m m' q := by
  induction l generalizing m with
  | nil =>
      cases h
      exact ⟨.refl, fun q hq => by cases hq⟩
  | cons i l ih =>
      simp only [dirAllocLoop, Option.bind_eq_bind, Option.bind_eq_some_iff] at h
      obtain ⟨⟨m1, q⟩, hget, h⟩ := h
      have h1 := fileGetBlock_dirSteps hw hf hdir hget
      have hk := (h1.entriesKept hw).kept
      cases q with
      | error e =>
          cases h
          refine ⟨h1, fun q hq => ?_⟩
          cases hq
          exact .error h1 _
      | ok blk =>
          simp only at h
          split at h
          · rename_i g hentry
            cases h
            refine ⟨h1, fun q hq => ?_⟩
            cases hq
            refine ⟨h1, fun x hx => ?_⟩
            cases hx
            obtain ⟨j, hj, rfl⟩ := unusedEntry_some hentry
            exact fileGetBlock_entry hw hf hdir hget hj
          · obtain ⟨h2, h3⟩ := ih hk.wf (hk.files f hf) ((hk.type f hf).trans hdir) h
            exact ⟨Relation.ReflTransGen.trans h1 h2, fun q hq => .trans h1 (h3 q hq)⟩

theorem dirAllocFile_leadsTo {r : Except Int Nat} (hw : Wf m) (hf : FileAt m f)
    (hdir : fType m f = ftypeDir) (h : dirAllocFile m f = some (m', r)) : LeadsTo m m' r := by
  rw [dirAllocFile] at h
  split at h
  · cases h
  simp only [Option.bind_eq_bind, Option.bind_eq_some_iff] at h
  obtain ⟨⟨m1, q⟩, hloop, h⟩ := h
  obtain ⟨h1, hfound⟩ := dirAllocLoop_leadsTo hw hf hdir hloop
  cases q with
  | some r =>
      cases h
      exact hfound r rfl
  | none =>
      have hk1 := (h1.entriesKept hw).kept
      have h2 : DirSteps m (m1.write32 (f + 128) (fSize m1 f + 4096#32)) :=
        Relation.ReflTransGen.tail h1 (.longer (hk1.files f hf) ((hk1.type f hf).trans hdir))
      have hk2 := (h2.entriesKept hw).kept
      have hf2 := hk2.files f hf
      have hdir2 := (hk2.type f hf).trans hdir
      simp only at h
      refine .trans h2 ⟨fileGetBlock_dirSteps hk2.wf hf2 hdir2 h, fun g hg => ?_⟩
      subst hg
      exact fileGetBlock_entry hk2.wf hf2 hdir2 h (show 0 < blkfiles by decide)

/-! ## Paths -/

/-- What `walk_path` finds: a file, or the directory for a name that is not there. -/
structure PathLeadsTo (m m' : Mem) (w : Walk) : Prop where
  steps : DirSteps m m'
  file : ∀ f, w.file = .ok f → FileAt m' f
  dir : ∀ r d, w.file = .error r → w.dir = some d →
    FileAt m' d ∧ fType m' d = ftypeDir ∧ w.last.length < maxnamelen

theorem walkLoop_leadsTo {fuel : Nat} {dir : Option Nat} {path : List (BitVec 8)} {w : Walk}
    (hw : Wf m) (hf : FileAt m f) (h : walkLoop fuel m dir f path = some (m', w)) :
    PathLeadsTo m m' w := by
  induction fuel generalizing m dir f path with
  | zero => cases h
  | succ fuel ih =>
      simp only [walkLoop] at h
      split at h
      · cases h
        exact ⟨.refl, (fun g hg => by cases hg; exact hf), (fun r d hr => by cases hr)⟩
      split at h
      · cases h
        exact ⟨.refl, (fun g hg => by cases hg), (fun r d _ hd => by cases hd)⟩
      rename_i hlen
      split at h
      · cases h
        exact ⟨.refl, (fun g hg => by cases hg), (fun r d _ hd => by cases hd)⟩
      rename_i hdir
      have hdir' : fType m f = ftypeDir := by simpa using hdir
      simp only [Option.bind_eq_bind, Option.bind_eq_some_iff] at h
      obtain ⟨⟨m1, q⟩, hlook, h⟩ := h
      obtain ⟨h1, hfound⟩ := dirLookup_leadsTo hw hf hdir' hlook
      have hk := (h1.entriesKept hw).kept
      cases q with
      | error e =>
          simp only at h
          split at h
          · cases h
            refine ⟨h1, (fun g hg => by cases hg), fun r d _ hd => ?_⟩
            cases hd
            exact ⟨hk.files f hf, (hk.type f hf).trans hdir', Nat.lt_of_not_le hlen⟩
          · cases h
            exact ⟨h1, (fun g hg => by cases hg), (fun r d _ hd => by cases hd)⟩
      | ok g =>
          have h2 := ih hk.wf (hfound g rfl) h
          exact ⟨Relation.ReflTransGen.trans h1 h2.steps, h2.file, h2.dir⟩

theorem fileOpen_leadsTo {path : List (BitVec 8)} {r : Except Int Nat} (hw : Wf m)
    (h : fileOpen m path = some (m', r)) : LeadsTo m m' r := by
  simp only [fileOpen, Option.bind_eq_bind, Option.bind_eq_some_iff] at h
  obtain ⟨⟨m1, w⟩, hwalk, h⟩ := h
  cases h
  have hfound := walkLoop_leadsTo hw .root hwalk
  exact ⟨hfound.steps, hfound.file⟩

theorem fileCreate_leadsTo {path : List (BitVec 8)} {r : Except Int Nat} (hw : Wf m)
    (h : fileCreate m path = some (m', r)) : LeadsTo m m' r := by
  simp only [fileCreate, Option.bind_eq_bind, Option.bind_eq_some_iff] at h
  obtain ⟨⟨m1, w⟩, hwalk, h⟩ := h
  have hfound := walkLoop_leadsTo hw .root hwalk
  have h1 := hfound.steps
  simp only at h
  split at h
  · cases h
    exact .error h1 _
  · cases h
    exact .error h1 _
  · rename_i e d hfile hdir
    obtain ⟨hd, htype, hlen⟩ := hfound.dir e d hfile hdir
    split at h
    · cases h
      exact .error h1 _
    · simp only [Option.bind_eq_some_iff] at h
      obtain ⟨⟨m2, q⟩, halloc, h⟩ := h
      obtain ⟨h2, hentry⟩ := dirAllocFile_leadsTo (h1.entriesKept hw).kept.wf hd htype halloc
      have h12 : DirSteps m m2 := Relation.ReflTransGen.trans h1 h2
      cases q with
      | error e =>
          cases h
          exact .error h12 _
      | ok f =>
          simp only [Option.bind_eq_some_iff] at h
          obtain ⟨_, _, h⟩ := h
          cases h
          have hf2 := hentry f rfl
          refine ⟨Relation.ReflTransGen.tail h12 (.name hf2 hlen), fun x hx => ?_⟩
          cases hx
          exact (entriesKept_strcpy (h12.entriesKept hw).kept.wf hf2 hlen).kept.files f hf2

/-- The result is the memory, and a file where it is one. -/
def FoundIn (m : Mem) (m' : Mem) (r : Except Int Nat) : Prop :=
  EntriesKept m m' ∧ ∀ f, r = .ok f → FileAt m' f

theorem LeadsTo.foundIn {r : Except Int Nat} (h : LeadsTo m m' r) (hw : Wf m) : FoundIn m m' r :=
  ⟨h.1.entriesKept hw, h.2⟩

end

end Jos.Fs
