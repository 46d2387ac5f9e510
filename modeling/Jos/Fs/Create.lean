import Jos.Fs.Format
import Jos.Fs.Resolve
import Jos.Fs.SizeAgrees

/-!
# Creating files

`file_create` and `file_open` on a directory tree. A tree has different names in each directory, and
zeros in the entries that are not used, which are those with an empty name and those behind the end
of the directory. A new entry is one of them, with a name; a call changes nothing else about the
tree, apart from holes of directories that are filled and a directory that is a block longer.

Main results:
* `create_keeps_tree`: over any sequence of calls the tree stays one, and each call adds its file and no other;
* `create_changes_root`: the `struct File` of a directory changes with a new block.
-/

namespace Jos.Fs

open Jos.Lib

/-- No name is in two entries of the directory. -/
def NamesDistinct (m : Mem) (d : Nat) : Prop := ∀ name, NameOk name → ∀ e e', e < 16 * dirBlocks m d →
  e' < 16 * dirBlocks m d → nameAt m d name e = true → nameAt m d name e' = true → e = e'

/-- The entry is zero. -/
def EntryZero (m : Mem) (d e : Nat) : Prop := ∀ c < 256, fileByte m d (256 * e + c) = 0#8

/-- A directory tree. -/
structure Tree (m : Mem) : Prop where
  sound : Sound m
  distinct : ∀ d, FileAt m d → fType m d = ftypeDir → NamesDistinct m d
  unused : ∀ d, FileAt m d → fType m d = ftypeDir → ∀ e < 16 * maxblocks,
    16 * dirBlocks m d ≤ e ∨ unusedAt m d e = true → EntryZero m d e

/-- Paths lead to the same files. -/
structure LooksSame (m m' : Mem) : Prop where
  file : ∀ g, FileAt m g → FileAt m' g
  type : ∀ g, FileAt m g → fType m' g = fType m g
  ptr : ∀ g, FileAt m g → ∀ k < maxblocks, blockPtr m g k ≠ 0 → blockPtr m' g k = blockPtr m g k
  look : ∀ g, FileAt m g → fType m g = ftypeDir → ∀ name, NameOk name →
    lookupEntry m' g name = lookupEntry m g name

section

variable {m m' m1 : Mem} {d e f g n : Nat} {name : List (BitVec 8)}
  {names names' : List (List (BitVec 8))}

theorem LooksSame.refl (m : Mem) : LooksSame m m :=
  ⟨fun _ h => h, fun _ _ => rfl, fun _ _ _ _ _ => rfl, fun _ _ _ _ _ => rfl⟩

theorem LooksSame.trans (h : LooksSame m m1) (h' : LooksSame m1 m') : LooksSame m m' where
  file g hg := h'.file g (h.file g hg)
  type g hg := (h'.type g (h.file g hg)).trans (h.type g hg)
  ptr g hg k hk hb := by
    have h1 := h.ptr g hg k hk hb
    rw [h'.ptr g (h.file g hg) k hk (by rw [h1]; exact hb), h1]
  look g hg hdir name hname := by
    rw [h'.look g (h.file g hg) ((h.type g hg).trans hdir) name hname, h.look g hg hdir name hname]

/-- The names lead where they did. -/
theorem LooksSame.reaches_iff (h : LooksSame m m') (hs : Sound m) :
    Reaches m' names f ↔ Reaches m names f := by
  have hentry : ∀ {x y n}, FileAt m x → fType m x = ftypeDir → NameOk n → lookupEntry m x n = some y →
      entryAt m' x y = entryAt m x y := by
    intro x y n hx hxdir hn hl
    obtain ⟨hlt, hb, _⟩ := lookupEntry_child hxdir (hs.size_le x hx) hn hl
    rw [entryAt, entryAt, h.ptr x hx _ hlt hb]
  constructor
  · intro hr
    induction hr with
    | root => exact .root
    | @entry l x y n _ hxdir hn hl ih =>
        have hx := ih.fileAt hs.dirsOk
        rw [h.type x hx] at hxdir
        rw [h.look x hx hxdir n hn] at hl
        rw [hentry hx hxdir hn hl]
        exact .entry ih hxdir hn hl
  · intro hr
    induction hr with
    | root => exact .root
    | @entry l x y n hx hxdir hn hl ih =>
        have hxf := hx.fileAt hs.dirsOk
        rw [← hentry hxf hxdir hn hl]
        refine .entry ih ((h.type x hxf).trans hxdir) hn ?_
        rw [h.look x hxf hxdir n hn, hl]

/-! ## Entries -/

theorem EntryZero.byte (h : EntryZero m d e) (hb : blockPtr m d (e / 16) ≠ 0) {c : Nat} (hc : c < 256) :
    m (entryAt m d e + c) = 0#8 := by
  have hbyte := fileByte_entry (j := e % 16) hb (Nat.mod_lt _ (by decide)) hc
  rw [Nat.div_add_mod] at hbyte
  rw [entryAt, ← hbyte]
  exact h c hc

theorem EntryZero.read32 (h : EntryZero m d e) (hb : blockPtr m d (e / 16) ≠ 0) {o : Nat}
    (ho : o + 4 ≤ 256) : m.read32 (entryAt m d e + o) = 0#32 := by
  refine Mem.read32_of_zero fun x hx hx' => ?_
  obtain ⟨c, rfl⟩ := Nat.exists_eq_add_of_le (show entryAt m d e ≤ x by omega)
  exact h.byte hb (by omega)

/-- An unused entry is no directory. -/
theorem EntryZero.type (h : EntryZero m d e) (hb : blockPtr m d (e / 16) ≠ 0) :
    fType m (entryAt m d e) ≠ ftypeDir := by
  rw [fType, h.read32 hb (by decide)]
  decide

theorem EntryZero.nameAt (h : EntryZero m d e) (hname : NameOk name) : nameAt m d name e = false :=
  bytesAre_zero hname (h 0 (by decide))

/-- A change to the `struct File` of a directory is none to an unused entry. -/
theorem EntryZero.of_outside (h : EntryZero m g e) (hw : Wf m) (hf : FileAt m f)
    (hdir : fType m f = ftypeDir) (hg : FileAt m g) (he : e < 16 * maxblocks)
    (hsame : ∀ i < maxfilesize, ¬ InEntry m f g i → fileByte m' g i = fileByte m g i) :
    EntryZero m' g e := by
  intro c hc
  have hi : 256 * e + c < maxfilesize := by
    simp only [maxblocks, maxfilesize] at he ⊢
    omega
  rw [hsame _ hi fun hin => ?_]
  · exact h c hc
  · obtain ⟨hb, rfl⟩ := hw.entry_of_inEntry hf hg he hc hin
    exact h.type hb hdir

/-! ## Changes to a directory that show in no name -/

/-- Blocks are added to the directory `f`, or it gets longer. -/
structure DirEdited (f : Nat) (m m' : Mem) : Prop where
  sound : Sound m'
  file : ∀ g, FileAt m g → FileAt m' g
  new : ∀ g, FileAt m' g → FileAt m g ∨ fType m' g ≠ ftypeDir
  type : ∀ g, FileAt m g → fType m' g = fType m g
  blocks : ∀ g, FileAt m g → fType m g = ftypeDir → dirBlocks m g ≤ dirBlocks m' g
  ptr : ∀ g, FileAt m g → ∀ k < maxblocks, blockPtr m g k ≠ 0 → blockPtr m' g k = blockPtr m g k
  name : ∀ g, FileAt m g → ∀ e < 16 * maxblocks, ∀ c < 128,
    fileByte m' g (256 * e + c) = fileByte m g (256 * e + c)
  byte : ∀ g, FileAt m g → ∀ i < maxfilesize, ¬ InEntry m f g i → fileByte m' g i = fileByte m g i

theorem Sound.dirBlocks_le (hs : Sound m) (hd : FileAt m d) : dirBlocks m d ≤ maxblocks :=
  Jos.Fs.dirBlocks_le (hs.size_le d hd)

theorem DirEdited.entryZero (h : DirEdited f m m') (ht : Tree m) (hf : FileAt m f)
    (hdir : fType m f = ftypeDir) (hg : FileAt m g) (he : e < 16 * maxblocks) (hz : EntryZero m g e) :
    EntryZero m' g e := hz.of_outside ht.sound.wf hf hdir hg he (h.byte g hg)

/-- The entries that have become part of a directory have no names. -/
theorem DirEdited.lookupEntry_eq (h : DirEdited f m m') (ht : Tree m) (hg : FileAt m g)
    (hdir : fType m g = ftypeDir) (hname : NameOk name) :
    lookupEntry m' g name = lookupEntry m g name := by
  have hle := h.blocks g hg hdir
  have hmax := h.sound.dirBlocks_le (h.file g hg)
  have hat : ∀ e < 16 * maxblocks, nameAt m' g name e = nameAt m g name e :=
    fun e he => nameAt_congr_name hname (h.name g hg e he)
  have hsplit : List.range' 0 (16 * dirBlocks m' g) = List.range' 0 (16 * dirBlocks m g) ++
      List.range' (16 * dirBlocks m g) (16 * (dirBlocks m' g - dirBlocks m g)) := by
    rw [show 16 * dirBlocks m' g = 16 * dirBlocks m g + 16 * (dirBlocks m' g - dirBlocks m g) by omega,
      ← List.range'_append_1, Nat.zero_add]
  have hnone : (List.range' (16 * dirBlocks m g) (16 * (dirBlocks m' g - dirBlocks m g))).find?
      (nameAt m' g name) = none := by
    rw [List.find?_eq_none]
    intro e he
    rw [List.mem_range'_1] at he
    rw [hat e (by omega), (ht.unused g hg hdir e (by omega) (Or.inl he.1)).nameAt hname]
    exact Bool.false_ne_true
  simp only [lookupEntry, entryFrom, Nat.mul_zero, Nat.sub_zero]
  rw [hsplit, List.find?_append, hnone, Option.or_none]
  refine List.find?_congr fun e he => hat e ?_
  rw [List.mem_range'_1] at he
  omega

theorem DirEdited.looksSame (h : DirEdited f m m') (ht : Tree m) : LooksSame m m' :=
  ⟨h.file, h.type, h.ptr, fun _ hg hdir _ hname => h.lookupEntry_eq ht hg hdir hname⟩

theorem DirEdited.tree (h : DirEdited f m m') (ht : Tree m) (hf : FileAt m f)
    (hdir : fType m f = ftypeDir) : Tree m' := by
  have hdirs : ∀ g, FileAt m' g → fType m' g = ftypeDir → FileAt m g ∧ fType m g = ftypeDir := by
    intro g hg hgdir
    have hg0 := (h.new g hg).resolve_right fun hreg => hreg hgdir
    exact ⟨hg0, (h.type g hg0).symm.trans hgdir⟩
  refine ⟨h.sound, fun g hg hgdir name hname e e' he he' hat hat' => ?_,
    fun g hg hgdir e he hor => ?_⟩
  · obtain ⟨hg0, hdir0⟩ := hdirs g hg hgdir
    have hmax := h.sound.dirBlocks_le hg
    -- A named entry is no new one.
    have hold : ∀ x < 16 * dirBlocks m' g, nameAt m' g name x = true →
        x < 16 * dirBlocks m g ∧ nameAt m g name x = true := by
      intro x hx hxat
      rw [nameAt_congr_name hname (h.name g hg0 x (by omega))] at hxat
      refine ⟨?_, hxat⟩
      by_contra hge
      rw [(ht.unused g hg0 hdir0 x (by omega) (Or.inl (by omega))).nameAt hname] at hxat
      cases hxat
    obtain ⟨hlt, h1⟩ := hold e he hat
    obtain ⟨hlt', h2⟩ := hold e' he' hat'
    exact ht.distinct g hg0 hdir0 name hname e e' hlt hlt' h1 h2
  · obtain ⟨hg0, hdir0⟩ := hdirs g hg hgdir
    have hle := h.blocks g hg0 hdir0
    refine h.entryZero ht hf hdir hg0 he (ht.unused g hg0 hdir0 e he ?_)
    rcases hor with hge | hun
    · exact Or.inl (by omega)
    · right
      rw [unusedAt, ← Nat.add_zero (256 * e), ← h.name g hg0 e he 0 (by decide)]
      exact hun

/-- A file of a new block has no size. -/
theorem Grows.fileAt_cases (h : Grows f m n m') (hw : Wf m) (hg : FileAt m' g) :
    FileAt m g ∨ fSize m' g = 0#32 := by
  induction h with
  | refl => exact Or.inl hg
  | step h _ halloc ih =>
      have hw1 := h.wf hw
      rcases halloc.fileAt_cases hw1 hg with hg1 | ⟨j, hj, rfl⟩
      · refine (ih hg1).imp id fun hz => ?_
        rw [(halloc.edited hw1).size g hg1, hz]
      · simp only [blkfiles] at hj
        right
        rw [fSize, halloc.read_new (by omega) (by omega)]

theorem Grows.sound (h : Grows f m n m') (hs : Sound m) : Sound m' := by
  have hds := hs.dirsOk.grows hs.wf h
  refine ⟨h.wf hs.wf, fun g hg => ?_, fun g hg hdir => (hds g hg hdir).aligned⟩
  rcases h.fileAt_cases hs.wf hg with hg0 | hz
  · rw [h.size_eq hs.wf hg0]
    exact hs.size_le g hg0
  · rw [hz]
    exact Nat.zero_le _

theorem Grows.dirEdited (h : Grows f m n m') (hs : Sound m) (hf : FileAt m f) : DirEdited f m m' := by
  refine ⟨h.sound hs, fun g hg => h.fileAt hs.wf hg, fun g hg => ?_, fun g hg => h.type_eq hs.wf hg,
    fun g hg _ => ?_, fun g hg => (h.sameNames hs.wf hf hg).ptr,
    fun g hg => (h.sameNames hs.wf hf hg).name, fun g hg i hi hin => h.fileByte_eq hs.wf hg hi hin⟩
  · exact ((h.entriesKept hs.wf).new g hg).imp id And.left
  · rw [dirBlocks, dirBlocks, h.size_eq hs.wf hg]

/-- The directory is a block longer. -/
theorem dirEdited_longer (hs : Sound m) (hf : FileAt m f) (hdir : fType m f = ftypeDir)
    (hlt : dirBlocks m f < maxblocks) :
    DirEdited f m (m.write32 (f + 128) (fSize m f + 4096#32)) ∧
      dirBlocks (m.write32 (f + 128) (fSize m f + 4096#32)) f = dirBlocks m f + 1 := by
  have hsize := hs.size_le f hf
  have hblocks := dirBlocks_eq hsize
  have hal := (srem_eq_zero_iff _).mp (hs.aligned f hf hdir)
  simp only [maxblocks, maxfilesize] at hlt hsize
  have hnat : (fSize m f + 4096#32).toNat = (fSize m f).toNat + 4096 := by
    rw [BitVec.toNat_add, BitVec.toNat_ofNat]
    omega
  have hun := unmoved_size hs.wf hf (fSize m f + 4096#32)
  have hre := rewritten_size hs.wf hf (fSize m f + 4096#32)
  have hnew : fSize (m.write32 (f + 128) (fSize m f + 4096#32)) f = fSize m f + 4096#32 := by
    rw [hre.size f hf, if_pos rfl]
  have hlonger : dirBlocks (m.write32 (f + 128) (fSize m f + 4096#32)) f = dirBlocks m f + 1 := by
    rw [hblocks, dirBlocks_eq (by rw [hnew, hnat]; simp only [maxfilesize]; omega), hnew, hnat]
    omega
  have hkept := (DirStep.longer hf hdir).entriesKept hs.wf
  have hbyte : ∀ g, FileAt m g → ∀ i < maxfilesize, ¬ InEntry m f g i →
      fileByte (m.write32 (f + 128) (fSize m f + 4096#32)) g i = fileByte m g i :=
    fun g hg i hi hin => hre.byte g i hg hi hin fun _ => id
  refine ⟨⟨⟨hun.wf hs.wf, fun g hg => ?_, fun g hg hgdir => ?_⟩, fun g hg => hun.fileAt_iff.mpr hg,
    fun g hg => Or.inl (hun.fileAt_iff.mp hg), hun.type, fun g hg _ => ?_,
    fun g hg k hk _ => hun.blockPtr_eq hg hk, fun g hg e he c hc => ?_, hbyte⟩, hlonger⟩
  · have hg0 := hun.fileAt_iff.mp hg
    rw [hre.size g hg0]
    split
    · rw [hnat]
      simp only [maxfilesize]
      omega
    · exact hs.size_le g hg0
  · have hg0 := hun.fileAt_iff.mp hg
    rw [hun.type g hg0] at hgdir
    exact hkept.size g hg0 hgdir (hs.aligned g hg0 hgdir)
  · by_cases heq : g = f
    · rw [heq, hlonger]
      exact Nat.le_succ _
    · rw [dirBlocks, dirBlocks, hre.size g hg, if_neg heq]
  · exact fileByte_name_size hs.wf hf hg he hc _

theorem Filled.tree {P : Nat → Prop} (h : Filled P m m') (ht : Tree m) : Tree m' ∧ LooksSame m m' := by
  induction h with
  | refl => exact ⟨ht, .refl m⟩
  | tail _ hstep ih =>
      obtain ⟨_, _, _, hd, hdir, hgrow⟩ := hstep
      have hedit := hgrow.dirEdited ih.1.sound hd
      exact ⟨hedit.tree ih.1 hd hdir, ih.2.trans (hedit.looksSame ih.1)⟩

/-! ## The `struct File` of other files -/

/-- The `struct File` of `g` is as before. -/
def SameHeader (m m' : Mem) (g : Nat) : Prop := ∀ x < 256, m' (g + x) = m (g + x)

theorem SameHeader.trans (h : SameHeader m m1 g) (h' : SameHeader m1 m' g) : SameHeader m m' g :=
  fun x hx => (h' x hx).trans (h x hx)

theorem Grows.sameHeader (h : Grows f m n m') (hw : Wf m) (hf : FileAt m f) (hg : FileAt m g)
    (hne : g ≠ f) : SameHeader m m' g := by
  intro x hx
  induction h with
  | refl => rfl
  | @step n b m1 m' p h hfile halloc ih =>
      have hw1 := h.wf hw
      have hf1 := h.fileAt hw hf
      have hg1 := h.fileAt hw hg
      have hbody : InBody m1 (g + x) 1 := by
        rcases hw1.file_inBody hg1 with hb | ⟨c, h1, h2, h3, h4⟩
        · exact Or.inl (by omega)
        · exact Or.inr ⟨c, h1, h2, h3, by omega⟩
      have hout : g + x + 1 ≤ p.addr m1 ∨ p.addr m1 + 4 ≤ g + x := by
        rcases halloc.valid.cases_addr with hin | ⟨l, hl, _, hind, haddr⟩
        · rw [hfile] at hin
          have := hw1.files_disjoint hg1 hf1 hne
          omega
        · have := hw1.file_indirect_disjoint hg1 halloc.valid.fileAt hind
          simp only [nindirect] at hl
          omega
      rw [halloc.same_body hw1 hbody hout (Nat.le_refl _) (by omega), ih]

theorem Filled.sameHeader {P : Nat → Prop} (h : Filled P m m') (hw : Wf m) (hg : FileAt m g)
    (hno : ¬ P g) : SameHeader m m' g := by
  induction h with
  | refl => exact fun _ _ => rfl
  | tail h hstep ih =>
      obtain ⟨d, _, hP, hd, _, hgrow⟩ := hstep
      refine ih.trans (hgrow.sameHeader (Filled.wf h hw) hd (Filled.sameNames h hw hg).1 ?_)
      rintro rfl
      exact hno hP

theorem Filled.header_rest {P : Nat → Prop} (h : Filled P m m') (hw : Wf m) (hg : FileAt m g)
    {c : Nat} (hc : c < 136 ∨ 180 ≤ c ∧ c < 256) : m' (g + c) = m (g + c) := by
  induction h with
  | refl => rfl
  | @tail m1 m2 h hstep ih =>
      obtain ⟨d, _, _, hd, _, hgrow⟩ := hstep
      have hw1 := Filled.wf h hw
      have hg1 := (Filled.sameNames h hw hg).1
      rw [← ih]
      by_cases heq : g = d
      · rw [heq]
        exact hgrow.header_rest hw1 hd (by omega)
      · exact hgrow.sameHeader hw1 hd hg1 heq c (by omega)

/-! ## The new entry -/

theorem dirAllocLoop_found {i : Nat} (hw : Wf m) (hd : FileAt m d) (hn : n ≤ maxblocks) (hi : i ≤ n)
    (hpres : Present m d i n)
    (h : dirAllocLoop d m (List.range' i (n - i)) = some (m', some (.ok g))) :
    m' = m ∧ ∃ e < 16 * n, g = entryAt m d e ∧ blockPtr m d (e / 16) ≠ 0 ∧ unusedAt m d e = true := by
  obtain ⟨k, hk⟩ : ∃ k, n = i + k := ⟨n - i, by omega⟩
  induction k generalizing i with
  | zero =>
      rw [show n - i = 0 by omega] at h
      cases h
  | succ k ih =>
      have hb := hpres i (Nat.le_refl _) (by omega)
      rw [show n - i = n - (i + 1) + 1 by omega, List.range'_succ, dirAllocLoop,
        fileGetBlock_present hw hd (by omega) hb] at h
      simp only [Option.bind_eq_bind, Option.bind_some] at h
      split at h
      · rename_i g' hun
        cases h
        obtain ⟨j, hj, rfl⟩ := Option.map_eq_some_iff.mp hun
        have hlt : j < 16 := List.mem_range.mp (List.mem_of_find?_eq_some hj)
        have hzero := List.find?_some hj
        have hbyte := fileByte_entry (c := 0) hb hlt (by decide)
        rw [Nat.add_zero] at hbyte
        refine ⟨rfl, 16 * i + j, by omega, (entryAt_eq hlt).symm, ?_, ?_⟩
        · rw [show (16 * i + j) / 16 = i by omega]
          exact hb
        · rw [unusedAt, hbyte]
          exact hzero
      · exact ih (by omega) (fun j h1 h2 => hpres j (by omega) h2) h (by omega)

/-- An unused entry for a name in the directory `d`. -/
structure EntryFound (m : Mem) (d e : Nat) (m' : Mem) : Prop where
  tree : Tree m'
  looks : LooksSame m m'
  lt : e < 16 * dirBlocks m' d
  block : blockPtr m' d (e / 16) ≠ 0
  unused : unusedAt m' d e = true
  size : fSize m' d = fSize m d ∨ fSize m' d = fSize m d + 4096#32
  rest : ∀ c < 256, c < 128 ∨ 132 ≤ c ∧ c < 136 ∨ 180 ≤ c → m' (d + c) = m (d + c)
  other : ∀ x, FileAt m x → x ≠ d → SameHeader m m' x

theorem dirAllocFile_found (ht : Tree m) (hd : FileAt m d) (hdir : fType m d = ftypeDir)
    (hpres : Present m d 0 (dirBlocks m d)) (h : dirAllocFile m d = some (m', .ok g)) :
    ∃ e, g = entryAt m' d e ∧ EntryFound m d e m' := by
  have hs := ht.sound
  have hle := hs.dirBlocks_le hd
  obtain ⟨r, hrun, _, hok⟩ := dirAllocLoop_present hs.wf hd hle (Nat.zero_le _) hpres
  have hrun' := hrun
  rw [Nat.sub_zero, ← List.range_eq_range'] at hrun
  rw [dirAllocFile, if_neg fun hne => hne (hs.aligned d hd hdir)] at h
  simp only [show ((fSize m d).sdiv 4096#32).toNat = dirBlocks m d from rfl, hrun,
    Option.bind_eq_bind, Option.bind_some] at h
  cases r with
  | some q =>
      cases h
      obtain ⟨_, e, hlt, heq, hb, hun⟩ := dirAllocLoop_found hs.wf hd hle (Nat.zero_le _) hpres hrun'
      exact ⟨e, heq, ht, .refl m, hlt, hb, hun, Or.inl rfl, fun _ _ _ => rfl, fun _ _ _ _ _ => rfl⟩
  | none =>
      simp only at h
      by_cases hlt : dirBlocks m d < maxblocks
      · -- The directory gets a block, and the first entry of it is taken.
        obtain ⟨hedit, hlonger⟩ := dirEdited_longer hs hd hdir hlt
        generalize hm1 : m.write32 (d + 128) (fSize m d + 4096#32) = m1 at h hedit hlonger
        have ht1 := hedit.tree ht hd hdir
        have hd1 := hedit.file d hd
        have hnat : ((fSize m d).sdiv 4096#32).toNat = dirBlocks m d := rfl
        rcases fileGetBlock_cases ((fSize m d).sdiv 4096#32) ht1.sound.wf hd1 (by rw [hnat]; exact hlt) with
          ⟨_, hnone⟩ | ⟨m2, hget, hgot⟩
        · rw [hnone] at h
          cases h
        rw [hget] at h
        cases h
        rw [hnat] at hgot ⊢
        have hgrown := hgot.grows.dirEdited ht1.sound hd1
        have hzero : EntryZero m' d (16 * dirBlocks m d) := by
          refine hgrown.entryZero ht1 hd1 ((hedit.type d hd).trans hdir) hd1 (by omega) ?_
          exact hedit.entryZero ht hd hdir hd (by omega) (ht.unused d hd hdir _ (by omega) (Or.inl (by omega)))
        have hdiv : 16 * dirBlocks m d / 16 = dirBlocks m d := by omega
        have hsize1 : fSize m1 d = fSize m d + 4096#32 := by
          rw [← hm1]
          exact Mem.read32_write32_self ..
        refine ⟨16 * dirBlocks m d, ?_, hgrown.tree ht1 hd1 ((hedit.type d hd).trans hdir),
          (hedit.looksSame ht).trans (hgrown.looksSame ht1), ?_, ?_, ?_, ?_, fun c hc hout => ?_,
          fun x hx hne => ?_⟩
        · rw [entryAt, hdiv, Nat.mul_mod_right, Nat.mul_zero, Nat.add_zero]
        · have := hgrown.blocks d hd1 ((hedit.type d hd).trans hdir)
          omega
        · rw [hdiv]
          exact hgot.ptr_ne
        · rw [unusedAt, ← Nat.add_zero (256 * _), hzero 0 (by decide)]
          rfl
        · right
          rw [hgot.grows.size_eq ht1.sound.wf hd1, hsize1]
        · rw [hgot.grows.header_rest ht1.sound.wf hd1 (by omega), ← hm1]
          exact Mem.write32_of_disjoint _ _ (by omega)
        · refine SameHeader.trans (fun y hy => ?_)
            (hgot.grows.sameHeader ht1.sound.wf hd1 (hedit.file x hx) hne)
          have := hs.wf.files_disjoint hx hd hne
          rw [← hm1]
          exact Mem.write32_of_disjoint _ _ (by omega)
      · rw [fileGetBlock_large (Nat.le_of_not_lt hlt)] at h
        cases h

/-! ## The name -/

/-- Only the name of the entry `e` of `d` has been written. -/
structure Named (m : Mem) (d e : Nat) (name : List (BitVec 8)) (m' : Mem) : Prop where
  unmoved : Unmoved m m'
  size : ∀ x, FileAt m x → fSize m' x = fSize m x
  byte : ∀ x, FileAt m x → ∀ y < 16 * maxblocks, x ≠ d ∨ y ≠ e → ∀ c < 256,
    fileByte m' x (256 * y + c) = fileByte m x (256 * y + c)
  own : nameAt m' d name e = true
  other : ∀ x, FileAt m x → x ≠ entryAt m d e → SameHeader m m' x
  rest : ∀ x, 128 ≤ x → m' (entryAt m d e + x) = m (entryAt m d e + x)

theorem bytesAre_getD (name : List (BitVec 8)) : bytesAre (fun c => name.getD c 0#8) name = true := by
  induction name with
  | nil => rfl
  | cons c l ih =>
      rw [bytesAre, Bool.and_eq_true]
      exact ⟨decide_eq_true rfl, ih⟩

theorem strcpy_named (hw : Wf m) (hd : FileAt m d) (hdir : fType m d = ftypeDir)
    (he : e < 16 * maxblocks) (hb : blockPtr m d (e / 16) ≠ 0) (hname : name.length < maxnamelen) :
    FileAt m (entryAt m d e) ∧ Named m d e name (strcpy m (entryAt m d e) name) := by
  have hdiv : e / 16 < maxblocks := by omega
  have hg : FileAt m (entryAt m d e) := .entry hd hdir hdiv hb (Nat.mod_lt _ (by decide))
  have hsame : ∀ x, x < entryAt m d e ∨ entryAt m d e + 128 ≤ x →
      strcpy m (entryAt m d e) name x = m x := by
    intro x hx
    simp only [maxnamelen] at hname
    rw [strcpy, if_neg (by omega)]
  have hun := unmoved_name hw hg hsame
  refine ⟨hg, hun, fun x hx => Mem.read32_congr fun y hy hy' => hsame y ?_,
    fun x hx y hy hne c hc => ?_, ?_, fun x hx hne c hc => hsame _ ?_, fun x hx => hsame _ (by omega)⟩
  · by_cases heq : x = entryAt m d e
    · omega
    · have := hw.files_disjoint hx hg heq
      omega
  · have hptr := hun.blockPtr_eq hx (i := y / 16) (by omega)
    by_cases hz : blockPtr m x (y / 16) = 0
    · have hblock : (256 * y + c) / 4096 = y / 16 := by omega
      rw [fileByte, fileByte, hblock, hptr, if_pos hz, if_pos hz]
    have hold := fileByte_entry (j := y % 16) hz (Nat.mod_lt _ (by decide)) hc
    have hnew := fileByte_entry (m := strcpy m (entryAt m d e) name) (j := y % 16)
      (by rw [hptr]; exact hz) (Nat.mod_lt _ (by decide)) hc
    rw [Nat.div_add_mod] at hold hnew
    rw [hold, hnew, hptr]
    -- Another entry is in another place.
    have hplace : entryAt m x y ≠ entryAt m d e := by
      intro heq
      obtain ⟨rfl, rfl⟩ := hw.entryAt_inj hx hd (by omega) hz hdiv hb heq
      exact hne.elim (absurd rfl) (absurd rfl)
    refine hsame _ ?_
    simp only [entryAt, blockAddr_eq] at hplace ⊢
    omega
  · have hptr := hun.blockPtr_eq hd hdiv
    rw [nameAt, ← bytesAre_getD name]
    refine bytesAre_congr fun c hc => ?_
    simp only [maxnamelen] at hname
    have hbyte := fileByte_entry (m := strcpy m (entryAt m d e) name) (j := e % 16) (c := c)
      (by rw [hptr]; exact hb) (Nat.mod_lt _ (by decide)) (by omega)
    rw [Nat.div_add_mod, hptr, ← entryAt] at hbyte
    rw [hbyte, strcpy, if_pos (by omega), Nat.add_sub_cancel_left]
  · have := hw.files_disjoint hx hg hne
    omega

/-- An unused entry of a directory, and a name that is not in the directory. -/
structure FreeEntry (m : Mem) (d e : Nat) (name : List (BitVec 8)) : Prop where
  tree : Tree m
  file : FileAt m d
  dir : fType m d = ftypeDir
  lt : e < 16 * dirBlocks m d
  block : blockPtr m d (e / 16) ≠ 0
  unused : unusedAt m d e = true
  nameOk : NameOk name
  fresh : lookupEntry m d name = none

theorem FreeEntry.lt_max (h : FreeEntry m d e name) : e < 16 * maxblocks := by
  have := h.tree.sound.dirBlocks_le h.file
  have := h.lt
  omega

theorem FreeEntry.zero (h : FreeEntry m d e name) : EntryZero m d e :=
  h.tree.unused d h.file h.dir e h.lt_max (Or.inr h.unused)

theorem FreeEntry.named (h : FreeEntry m d e name) : FileAt m (entryAt m d e) ∧
    Named m d e name (strcpy m (entryAt m d e) name) :=
  strcpy_named h.tree.sound.wf h.file h.dir h.lt_max h.block h.nameOk.length_lt

theorem FreeEntry.nameAt_fresh (h : FreeEntry m d e name) {y : Nat} (hy : y < 16 * dirBlocks m d) :
    nameAt m d name y = false := by
  have hnone := List.find?_eq_none.mp h.fresh y (List.mem_range'_1.mpr (by omega))
  rwa [Bool.not_eq_true] at hnone

theorem Named.dirBlocks_eq (h : Named m d e name m') (hg : FileAt m g) :
    dirBlocks m' g = dirBlocks m g := by
  rw [dirBlocks, dirBlocks, h.size g hg]

/-- The entry has no other name. -/
theorem Named.nameAt_own {n : List (BitVec 8)} (h : Named m d e name m') (hname : NameOk name)
    (hn : NameOk n) (hat : nameAt m' d n e = true) : n = name :=
  bytesAre_inj hat h.own hn.no_null hname.no_null

theorem Named.nameAt_eq {x y : Nat} {n : List (BitVec 8)} (h : Named m d e name m')
    (hfree : FreeEntry m d e name) (hx : FileAt m x) (hn : NameOk n) (hy : y < 16 * maxblocks)
    (hne : x ≠ d ∨ n ≠ name ∨ y ≠ e) : nameAt m' x n y = nameAt m x n y := by
  by_cases heq : x = d ∧ y = e
  · obtain ⟨rfl, rfl⟩ := heq
    rw [hfree.zero.nameAt hn, ← Bool.not_eq_true]
    intro hat
    have := h.nameAt_own hfree.nameOk hn hat
    rcases hne with hne | hne | hne <;> contradiction
  · refine nameAt_congr_name hn fun c hc => h.byte x hx y hy ?_ c (by omega)
    rwa [← not_and_or]

theorem Named.lookup_other {x : Nat} {n : List (BitVec 8)} (h : Named m d e name m')
    (hfree : FreeEntry m d e name) (hx : FileAt m x) (hn : NameOk n) (hne : x ≠ d ∨ n ≠ name) :
    lookupEntry m' x n = lookupEntry m x n := by
  have hle := hfree.tree.sound.dirBlocks_le hx
  unfold lookupEntry
  rw [h.dirBlocks_eq hx]
  refine entryFrom_congr fun y hy => h.nameAt_eq hfree hx hn (by omega) ?_
  rw [← or_assoc]
  exact Or.inl hne

theorem Named.lookup_own (h : Named m d e name m') (hfree : FreeEntry m d e name) :
    lookupEntry m' d name = some e := by
  have hle := hfree.tree.sound.dirBlocks_le hfree.file
  cases hl : lookupEntry m' d name with
  | none =>
      have hnone := List.find?_eq_none.mp hl e (List.mem_range'_1.mpr (by
        rw [h.dirBlocks_eq hfree.file]
        have := hfree.lt
        omega))
      exact absurd h.own hnone
  | some y =>
      have hrange := entryFrom_range hl
      have hat : nameAt m' d name y = true := List.find?_some hl
      rw [h.dirBlocks_eq hfree.file] at hrange
      by_contra hne
      rw [h.nameAt_eq hfree hfree.file hfree.nameOk (by omega)
        (Or.inr (Or.inr fun heq => hne (congrArg some heq))), hfree.nameAt_fresh hrange.2] at hat
      cases hat

theorem Named.type_eq (h : Named m d e name m') (hg : FileAt m g) : fType m' g = fType m g :=
  h.unmoved.type g hg

theorem Named.tree (h : Named m d e name m') (hfree : FreeEntry m d e name) : Tree m' := by
  have ht := hfree.tree
  have hs := ht.sound
  have hiff : ∀ {g}, FileAt m' g ↔ FileAt m g := h.unmoved.fileAt_iff
  have hdirs : ∀ g, FileAt m' g → fType m' g = ftypeDir → FileAt m g ∧ fType m g = ftypeDir := by
    intro g hg hgdir
    rw [hiff] at hg
    rw [h.type_eq hg] at hgdir
    exact ⟨hg, hgdir⟩
  refine ⟨⟨h.unmoved.wf hs.wf, fun g hg => ?_, fun g hg hgdir => ?_⟩,
    fun g hg hgdir n hn y y' hy hy' hat hat' => ?_, fun g hg hgdir y hy hor => ?_⟩
  · rw [h.size g (hiff.mp hg)]
    exact hs.size_le g (hiff.mp hg)
  · obtain ⟨hg0, hdir0⟩ := hdirs g hg hgdir
    rw [Aligned, h.size g hg0]
    exact hs.aligned g hg0 hdir0
  · obtain ⟨hg0, hdir0⟩ := hdirs g hg hgdir
    have hle := hs.dirBlocks_le hg0
    rw [h.dirBlocks_eq hg0] at hy hy'
    by_cases heq : g = d ∧ n = name
    · -- Only the new entry has the name.
      obtain ⟨rfl, rfl⟩ := heq
      have honly : ∀ z < 16 * dirBlocks m g, nameAt m' g n z = true → z = e := by
        intro z hz hzat
        by_contra hne
        rw [h.nameAt_eq hfree hg0 hn (by omega) (Or.inr (Or.inr hne)), hfree.nameAt_fresh hz] at hzat
        cases hzat
      rw [honly y hy hat, honly y' hy' hat']
    · rw [not_and_or] at heq
      rw [h.nameAt_eq hfree hg0 hn (by omega) (or_assoc.mp (Or.inl heq))] at hat hat'
      exact ht.distinct g hg0 hdir0 n hn y y' hy hy' hat hat'
  · obtain ⟨hg0, hdir0⟩ := hdirs g hg hgdir
    rw [h.dirBlocks_eq hg0] at hor
    by_cases heq : g = d ∧ y = e
    · -- The new entry is used.
      obtain ⟨rfl, rfl⟩ := heq
      rcases hor with hge | hun
      · have := hfree.lt
        omega
      · have hzero : nameAt m' g name y = false := by
          refine bytesAre_zero hfree.nameOk ?_
          rw [unusedAt, decide_eq_true_eq] at hun
          exact hun
        rw [h.own] at hzero
        cases hzero
    · rw [not_and_or] at heq
      intro c hc
      rw [h.byte g hg0 y hy heq c hc]
      refine ht.unused g hg0 hdir0 y hy (hor.imp id fun hun => ?_) c hc
      rwa [unusedAt, ← Nat.add_zero (256 * y), h.byte g hg0 y hy heq 0 (by decide)] at hun

/-- The names lead to the new entry, and otherwise where they did. -/
theorem Named.reaches_iff (h : Named m d e name m') (hfree : FreeEntry m d e name)
    (hd : Reaches m names d) : Reaches m' names' f ↔
      Reaches m names' f ∨ names' = names ++ [name] ∧ f = entryAt m d e := by
  have hs := hfree.tree.sound
  have hds := hs.dirsOk
  -- A look-up in the old tree is one in the new tree, and the other way round except for the new name.
  have hentry : ∀ {x y n}, FileAt m x → fType m x = ftypeDir → NameOk n → lookupEntry m x n = some y →
      entryAt m' x y = entryAt m x y := by
    intro x y n hx hxdir hn hl
    have hlt := (lookupEntry_child hxdir (hs.size_le x hx) hn hl).1
    rw [entryAt, entryAt, h.unmoved.blockPtr_eq hx hlt]
  have hkeep : ∀ {l x}, Reaches m l x → Reaches m' l x := by
    intro l x hx
    induction hx with
    | root => exact .root
    | @entry l x y n hx hxdir hn hl ih =>
        have hxf := hx.fileAt hds
        rw [← hentry hxf hxdir hn hl]
        refine .entry ih ((h.type_eq hxf).trans hxdir) hn ?_
        rw [h.lookup_other hfree hxf hn, hl]
        rw [← not_and_or]
        rintro ⟨rfl, rfl⟩
        rw [hfree.fresh] at hl
        cases hl
  constructor
  · intro hr
    induction hr with
    | root => exact Or.inl .root
    | @entry l x y n hx hxdir hn hl ih =>
        rcases ih with hx0 | ⟨_, rfl⟩
        · have hxf := hx0.fileAt hds
          rw [h.type_eq hxf] at hxdir
          by_cases heq : x = d ∧ n = name
          · obtain ⟨rfl, rfl⟩ := heq
            rw [h.lookup_own hfree] at hl
            cases hl
            have hlt := hfree.lt_max
            rw [hx0.names_unique hd hs.wf hds, entryAt, entryAt, h.unmoved.blockPtr_eq hxf (by omega)]
            exact Or.inr ⟨rfl, rfl⟩
          · rw [not_and_or] at heq
            rw [h.lookup_other hfree hxf hn heq] at hl
            rw [hentry hxf hxdir hn hl]
            exact Or.inl (.entry hx0 hxdir hn hl)
        · -- Nothing is in the new file.
          rw [h.type_eq hfree.named.1] at hxdir
          exact absurd hxdir (hfree.zero.type hfree.block)
  · rintro (hr | ⟨rfl, rfl⟩)
    · exact hkeep hr
    · have hlt := hfree.lt_max
      have heq : entryAt m' d e = entryAt m d e := by
        rw [entryAt, entryAt, h.unmoved.blockPtr_eq hfree.file (by omega)]
      rw [← heq]
      exact .entry (hkeep hd) ((h.type_eq hfree.file).trans hfree.dir) hfree.nameOk (h.lookup_own hfree)

/-- No names lead to an unused entry. -/
theorem FreeEntry.not_reached (h : FreeEntry m d e name) : ¬ Reaches m names (entryAt m d e) := by
  intro hr
  have hs := h.tree.sound
  have hlt := h.lt_max
  generalize hg : entryAt m d e = g at hr
  cases hr with
  | root =>
      have hchild : Child m d sRoot :=
        ⟨h.dir, e / 16, by omega, h.block, e % 16, Nat.mod_lt _ (by decide), hg.symm⟩
      exact hs.wf.child_ne_root h.file hchild
  | @entry l x y n hx hxdir hn hl =>
      have hxf := hx.fileAt hs.dirsOk
      obtain ⟨hylt, hb, _⟩ := lookupEntry_child hxdir (hs.size_le x hxf) hn hl
      obtain ⟨rfl, rfl⟩ := hs.wf.entryAt_inj h.file hxf (by omega) h.block hylt hb hg
      have hat : nameAt m d n e = true := List.find?_some hl
      rw [h.zero.nameAt hn] at hat
      cases hat

/-! ## The calls -/

/-- The path leads to the file `f`, as the directories are. -/
def Leads (m : Mem) (path : List (BitVec 8)) (f : Nat) : Prop :=
  (resolve m none sRoot (pathNames path)).file = .ok f

/-- `path` goes on where the other path ends. -/
def OnWay (path' path : List (BitVec 8)) : Prop := ∃ l ≠ [], pathNames path = pathNames path' ++ l

/-- What a call for `path` does to the files that paths lead to. Directories on the way get blocks in
place of holes, and the last one may be a block longer. -/
structure FilesKept (m : Mem) (path : List (BitVec 8)) (m' : Mem) : Prop where
  header : ∀ path' f, 0#8 ∉ path' → Leads m path' f → ¬ OnWay path' path → SameHeader m m' f
  rest : ∀ path' f, 0#8 ∉ path' → Leads m path' f →
    ∀ c < 256, c < 128 ∨ 132 ≤ c ∧ c < 136 ∨ 180 ≤ c → m' (f + c) = m (f + c)
  ptr : ∀ path' f, 0#8 ∉ path' → Leads m path' f →
    ∀ k < maxblocks, blockPtr m f k ≠ 0 → blockPtr m' f k = blockPtr m f k
  size : ∀ path' f, 0#8 ∉ path' → Leads m path' f → fSize m' f = fSize m f ∨
    fSize m' f = fSize m f + 4096#32 ∧ ∃ name, pathNames path = pathNames path' ++ [name]
  data : ∀ f, Regular m f → SameFile m m' f

/-- What `file_open` does. -/
structure OpenRight (m : Mem) (path : List (BitVec 8)) (m' : Mem) (r : Except Int Nat) : Prop where
  found : ∀ f, r = .ok f ↔ Leads m path f
  leads : ∀ path' f, 0#8 ∉ path' → (Leads m' path' f ↔ Leads m path' f)
  kept : FilesKept m path m'

/-- What `file_create` does. -/
structure CreateRight (m : Mem) (path : List (BitVec 8)) (m' : Mem) (r : Except Int Nat) : Prop where
  exists_iff : r = .error (-eFileExists) ↔ ∃ f, Leads m path f
  spelling : ∀ g, r = .ok g → ∀ path', pathNames path' = pathNames path → Leads m' path' g
  new : ∀ g, r = .ok g → ∀ path', 0#8 ∉ path' → ¬ Leads m path' g
  empty : ∀ g, r = .ok g → fSize m' g = 0#32 ∧ fType m' g = ftypeReg ∧ indirect m' g = 0#32 ∧
    ∀ k < maxblocks, blockPtr m' g k = 0
  leads : ∀ path' f, 0#8 ∉ path' → (∀ g, r = .ok g → pathNames path' ≠ pathNames path) →
    (Leads m' path' f ↔ Leads m path' f)
  kept : FilesKept m path m'

theorem leads_iff {path : List (BitVec 8)} (h0 : 0#8 ∉ path) :
    Leads m path f ↔ Reaches m (pathNames path) f := by
  unfold Leads
  rw [resolve_ok_iff .root (pathNames_parts h0), List.nil_append]

section

variable {path : List (BitVec 8)} {w : Walk} {r : Except Int Nat}

/-- A directory on the way of the names. -/
def Way (m : Mem) (names : List (List (BitVec 8))) (d : Nat) : Prop :=
  ∃ l t, t ≠ [] ∧ names = l ++ t ∧ Reaches m l d

theorem walkPath_done (hs : Sound m) (h0 : 0#8 ∉ path) (h : walkPath m path = some (m', w)) :
    w = resolve m none sRoot (pathNames path) ∧ WalkDone (Way m (pathNames path)) m m' w := by
  rw [walkPath_eq] at h
  rcases @walkNames_exact m sRoot none [] (pathNames path) (Way m (pathNames path)) hs.wf hs.dirsOk
      .root (pathNames_parts h0) fun l n l' d hl hd => ⟨l, n :: l', by simp, hl, hd⟩ with
    ⟨_, hnone⟩ | ⟨_, m1, hrun, hdone⟩
  · rw [hnone] at h
    cases h
  · rw [hrun] at h
    cases h
    exact ⟨rfl, hdone⟩

/-- A file that is reached by other names is not on the way. -/
theorem not_way {path' : List (BitVec 8)} (hs : Sound m) (hf : Reaches m (pathNames path') f)
    (hno : ¬ OnWay path' path) : ¬ Way m (pathNames path) f := by
  rintro ⟨l, t, ht, heq, hl⟩
  rw [hl.names_unique hf hs.wf hs.dirsOk] at heq
  exact hno ⟨t, ht, heq⟩

theorem Filled.filesKept (h : Filled (Way m (pathNames path)) m m') (hs : Sound m)
    (hdata : ∀ f, Regular m f → SameFile m m' f) : FilesKept m path m' := by
  refine ⟨fun path' f h0 hl hno => ?_, fun path' f h0 hl c hc hout => ?_,
    fun path' f h0 hl k hk hb => ?_, fun path' f h0 hl => Or.inl ?_, hdata⟩
  all_goals
    rw [leads_iff h0] at hl
    have hf := hl.fileAt hs.dirsOk
  · exact h.sameHeader hs.wf hf (not_way hs hl hno)
  · exact h.header_rest hs.wf hf (by omega)
  · exact (h.sameNames hs.wf hf).2.ptr k hk hb
  · exact (h.sameNames hs.wf hf).2.size

theorem fileOpen_right (ht : Tree m) (h0 : 0#8 ∉ path) (h : fileOpen m path = some (m', r)) :
    Tree m' ∧ OpenRight m path m' r := by
  have hsteps := (fileOpen_leadsTo ht.sound.wf h).1
  unfold fileOpen at h
  obtain ⟨⟨m1, w⟩, hwalk, h⟩ := Option.bind_eq_some_iff.mp h
  cases h
  obtain ⟨rfl, hdone⟩ := walkPath_done ht.sound h0 hwalk
  obtain ⟨ht1, hlooks⟩ := hdone.filled.tree ht
  refine ⟨ht1, fun f => Iff.rfl, fun path' f h0' => ?_,
    hdone.filled.filesKept ht.sound fun f hf =>
      DirSteps.sameFile hsteps ht.sound.wf hf⟩
  rw [leads_iff h0', leads_iff h0', hlooks.reaches_iff ht.sound]

theorem LooksSame.lookup_none (h : LooksSame m m1) (hd : FileAt m d) (hdir : fType m d = ftypeDir)
    (hname : NameOk name) (hnone : lookupEntry m d name = none) : lookupEntry m1 d name = none := by
  rw [h.look d hd hdir name hname, hnone]

/-- A full directory stays one when holes are filled. -/
theorem SameNames.dirFull (h : SameNames m m' d) (hsize : (fSize m d).toNat ≤ maxfilesize)
    (hfull : DirFull m' d) : DirFull m d := by
  have hblocks : dirBlocks m' d = dirBlocks m d := by rw [dirBlocks, dirBlocks, h.size]
  have hle := dirBlocks_le hsize
  obtain ⟨hmax, hno⟩ := hfull
  rw [hblocks] at hmax hno
  refine ⟨hmax, ?_⟩
  rw [List.any_eq_false] at hno ⊢
  intro e he
  have hlt := List.mem_range.mp he
  have hun := hno e he
  rw [unusedAt] at hun ⊢
  rwa [← Nat.add_zero (256 * e), h.name e (by omega) 0 (by decide), Nat.add_zero] at hun

/-- The three steps of a call that makes a new entry: the walk up to the directory `d`, the search
for an entry `e`, the name. -/
structure NewEntry (m : Mem) (names : List (List (BitVec 8))) (m1 : Mem) (d : Nat) (m2 : Mem) (e : Nat)
    (name : List (BitVec 8)) (m' : Mem) : Prop where
  tree : Tree m
  filled : Filled (Way m (names ++ [name])) m m1
  reached : Reaches m names d
  found : EntryFound m1 d e m2
  free : FreeEntry m2 d e name
  named : Named m2 d e name m'

section

variable {m2 : Mem}

theorem NewEntry.reaches2 (h : NewEntry m names m1 d m2 e name m') :
    Reaches m2 names' f ↔ Reaches m names' f := by
  obtain ⟨ht1, hlooks⟩ := h.filled.tree h.tree
  rw [h.found.looks.reaches_iff ht1.sound, hlooks.reaches_iff h.tree.sound]

theorem NewEntry.reaches (h : NewEntry m names m1 d m2 e name m') : Reaches m' names' f ↔
    Reaches m names' f ∨ names' = names ++ [name] ∧ f = entryAt m2 d e := by
  rw [h.named.reaches_iff h.free (h.reaches2.mpr h.reached), h.reaches2]

theorem NewEntry.not_reached (h : NewEntry m names m1 d m2 e name m') :
    ¬ Reaches m names' (entryAt m2 d e) := by
  rw [← h.reaches2]
  exact h.free.not_reached

theorem NewEntry.filesKept (h : NewEntry m names m1 d m2 e name m')
    (hpath : pathNames path = names ++ [name]) (hdata : ∀ f, Regular m f → SameFile m m' f) :
    FilesKept m path m' := by
  have hs := h.tree.sound
  obtain ⟨ht1, hlooks⟩ := h.filled.tree h.tree
  have hfill := h.filled
  rw [← hpath] at hfill
  -- The last step writes into no file that names lead to.
  have hlast : ∀ {l f}, Reaches m l f → FileAt m f ∧ FileAt m1 f ∧ FileAt m2 f ∧ SameHeader m2 m' f := by
    intro l f hl
    have hf := hl.fileAt hs.dirsOk
    have hf1 := hlooks.file f hf
    have hf2 := h.found.looks.file f hf1
    refine ⟨hf, hf1, hf2, h.named.other f hf2 ?_⟩
    rintro rfl
    exact h.not_reached hl
  refine ⟨fun path' f h0 hl hno => ?_, fun path' f h0 hl c hc hout => ?_,
    fun path' f h0 hl k hk hb => ?_, fun path' f h0 hl => ?_, hdata⟩
  all_goals
    rw [leads_iff h0] at hl
    obtain ⟨hf, hf1, hf2, hhead⟩ := hlast hl
  · refine ((hfill.sameHeader hs.wf hf (not_way hs hl hno)).trans (h.found.other f hf1 ?_)).trans hhead
    rintro rfl
    have heq := h.reached.names_unique hl hs.wf hs.dirsOk
    exact hno ⟨[name], by simp, by rw [hpath, heq]⟩
  · rw [hhead c hc, ← hfill.header_rest hs.wf hf (c := c) (by omega)]
    by_cases heq : f = d
    · rw [heq]
      exact h.found.rest c hc hout
    · exact h.found.other f hf1 heq c hc
  · have hb1 := hlooks.ptr f hf k hk hb
    rw [h.named.unmoved.blockPtr_eq hf2 hk, h.found.looks.ptr f hf1 k hk (by rw [hb1]; exact hb), hb1]
  · have hsize := (hfill.sameNames hs.wf hf).2.size
    rw [h.named.size f hf2, ← hsize]
    by_cases heq : f = d
    · subst heq
      have hnames := h.reached.names_unique hl hs.wf hs.dirsOk
      rw [hpath, hnames]
      exact h.found.size.imp id fun hgrown => ⟨hgrown, name, rfl⟩
    · exact Or.inl (Mem.read32_congr fun x hx hx' => by
        obtain ⟨c, rfl⟩ := Nat.exists_eq_add_of_le (show f ≤ x by omega)
        exact h.found.other f hf1 heq c (by omega))

theorem NewEntry.empty (h : NewEntry m names m1 d m2 e name m') :
    fSize m' (entryAt m2 d e) = 0#32 ∧ fType m' (entryAt m2 d e) = ftypeReg ∧
      indirect m' (entryAt m2 d e) = 0#32 ∧ ∀ k < maxblocks, blockPtr m' (entryAt m2 d e) k = 0 := by
  have hzero : ∀ o, 128 ≤ o → o + 4 ≤ 256 → m'.read32 (entryAt m2 d e + o) = 0#32 := by
    intro o hlo ho
    refine Mem.read32_of_zero fun x hx hx' => ?_
    obtain ⟨c, rfl⟩ := Nat.exists_eq_add_of_le (show entryAt m2 d e ≤ x by omega)
    rw [h.named.rest c (by omega)]
    exact h.free.zero.byte h.free.block (by omega)
  have hind : indirect m' (entryAt m2 d e) = 0#32 := hzero 176 (by decide) (by decide)
  refine ⟨hzero 128 (by decide) (by decide), hzero 132 (by decide) (by decide), hind, fun k hk => ?_⟩
  unfold blockPtr
  split
  · rename_i hlt
    simp only [ndirect] at hlt
    rw [fDirect, Nat.add_assoc, hzero _ (by omega) (by omega)]
    rfl
  · rfl

theorem NewEntry.right (h : NewEntry m names m1 d m2 e name m')
    (hpath : pathNames path = names ++ [name]) (h0 : 0#8 ∉ path) (hfresh : ∀ f, ¬ Leads m path f)
    (hdata : ∀ f, Regular m f → SameFile m m' f) :
    Tree m' ∧ CreateRight m path m' (.ok (entryAt m2 d e)) := by
  have hleads : ∀ {l f}, 0#8 ∉ l → (Leads m' l f ↔
      Leads m l f ∨ pathNames l = pathNames path ∧ f = entryAt m2 d e) := by
    intro l f hl
    rw [leads_iff hl, leads_iff hl, hpath]
    exact h.reaches
  refine ⟨h.named.tree h.free, ⟨⟨fun hr => (nomatch hr), fun ⟨f, hf⟩ => absurd hf (hfresh f)⟩,
    fun g hg path' hsame => ?_, fun g hg path' hl hf => ?_, fun g hg => ?_, fun path' f hl hne => ?_,
    h.filesKept hpath hdata⟩⟩
  · cases hg
    unfold Leads
    rw [hsame]
    exact (hleads h0).mpr (Or.inr ⟨rfl, rfl⟩)
  · cases hg
    rw [leads_iff hl] at hf
    exact h.not_reached hf
  · cases hg
    exact h.empty
  · rw [hleads hl]
    exact or_iff_left fun hc => hne _ rfl hc.1

end

/-- Nothing happens after a walk with that result. -/
theorem walk_right {q : Int} (ht : Tree m) (hfilled : Filled (Way m (pathNames path)) m m')
    (hcode : q = -eFileExists ↔ ∃ f, Leads m path f) (hdata : ∀ f, Regular m f → SameFile m m' f) :
    Tree m' ∧ CreateRight m path m' (.error q) := by
  obtain ⟨ht1, hlooks⟩ := hfilled.tree ht
  refine ⟨ht1, ⟨?_, fun g hg => (nomatch hg), fun g hg => (nomatch hg),
    fun g hg => (nomatch hg), fun path' f h0 _ => ?_, hfilled.filesKept ht.sound hdata⟩⟩
  · rw [← hcode]
    exact ⟨fun heq => by cases heq; rfl, fun heq => by rw [heq]⟩
  · rw [leads_iff h0, leads_iff h0, hlooks.reaches_iff ht.sound]

theorem fileCreate_right (ht : Tree m) (h0 : 0#8 ∉ path)
    (hbelow : ∀ d, FileAt m d → fType m d = ftypeDir → ¬ DirFull m d)
    (h : fileCreate m path = some (m', r)) : Tree m' ∧ CreateRight m path m' r := by
  have hs := ht.sound
  have hdata : ∀ f, Regular m f → SameFile m m' f := fun f hf =>
    DirSteps.sameFile (fileCreate_leadsTo hs.wf h).1 hs.wf hf
  rw [fileCreate_eq] at h
  obtain ⟨⟨m1, w⟩, hwalk, hend⟩ := Option.bind_eq_some_iff.mp h
  obtain ⟨hw, hdone⟩ := walkPath_done hs h0 hwalk
  obtain ⟨ht1, hlooks⟩ := hdone.filled.tree ht
  cases hfile : w.file with
  | ok f =>
      rw [createEnd] at hend
      simp only [hfile] at hend
      cases hend
      refine walk_right ht hdone.filled ⟨fun _ => ⟨f, ?_⟩, fun _ => rfl⟩ hdata
      rw [Leads, ← hw, hfile]
  | error q =>
      have hfresh : ∀ f, ¬ Leads m path f := by
        intro f hf
        rw [Leads, ← hw, hfile] at hf
        cases hf
      have hstops : Stops m (pathNames path) w q := by
        rw [hw] at hfile ⊢
        exact resolve_stops .root (pathNames_parts h0) hfile
      cases hdir : w.dir with
      | none =>
          rw [createEnd] at hend
          simp only [hfile, hdir] at hend
          cases hend
          refine walk_right ht hdone.filled (iff_of_false (fun hq => ?_) (not_exists.mpr hfresh)) hdata
          rcases hstops.code with rfl | rfl
          · cases hq
          · cases hq
      | some d =>
          obtain ⟨rfl, hname, init, hpath, hreach, hdirm, hnone⟩ := hstops.dir d hdir
          obtain ⟨hd1, hdir1, hpres⟩ := hdone.last _ d hfile hdir
          have hd := hreach.fileAt hs.dirsOk
          have hroom : ¬ DirFull m1 d := fun hfull => hbelow d hd hdirm
            ((hdone.filled.sameNames hs.wf hd).2.dirFull (hs.size_le d hd) hfull)
          obtain ⟨wf, wd, wl⟩ := w
          cases hfile
          cases hdir
          obtain ⟨g, rfl⟩ := createEnd_ok ht1.sound.wf (ht1.sound.dirsOk d hd1 hdir1) hpres hroom hend
          -- The entry is found, and the name is written to it.
          rw [createEnd] at hend
          simp only at hend
          rw [if_neg fun hne => hne rfl] at hend
          obtain ⟨⟨m2, q2⟩, halloc, hend⟩ := Option.bind_eq_some_iff.mp hend
          cases q2 with
          | error q2 => cases hend
          | ok g2 =>
              obtain ⟨_, _, hend⟩ := Option.bind_eq_some_iff.mp hend
              cases hend
              obtain ⟨e, rfl, hfound⟩ := dirAllocFile_found ht1 hd1 hdir1 hpres halloc
              have hd2 := hfound.looks.file d hd1
              have hdir2 := (hfound.looks.type d hd1).trans hdir1
              have hnone1 := hlooks.lookup_none hd hdirm hname hnone
              have hfree : FreeEntry m2 d e wl := ⟨hfound.tree, hd2, hdir2, hfound.lt, hfound.block,
                hfound.unused, hname, hfound.looks.lookup_none hd1 hdir1 hname hnone1⟩
              have hfilled := hdone.filled
              rw [hpath] at hfilled
              exact NewEntry.right ⟨ht, hfilled, hreach, hfound, hfree, hfree.named.2⟩ hpath h0 hfresh hdata

end

end

/-! ## Sequences of calls -/

inductive TreeCall
  | create (path : List (BitVec 8))
  | openFile (path : List (BitVec 8))

def TreeCall.path : TreeCall → List (BitVec 8)
  | .create path => path
  | .openFile path => path

/-- The memory and what the call returns. -/
def TreeCall.run (m : Mem) : TreeCall → Option (Mem × Except Int Nat)
  | .create path => fileCreate m path
  | .openFile path => fileOpen m path

/-- The blocks that it takes. -/
def TreeCall.need (m : Mem) : TreeCall → Nat
  | .create path => createNeed (path.length + 1) m sRoot (skipSlash path)
  | .openFile path => namesNeed m sRoot (pathNames path)

/-- The path is a string, there are enough free blocks, and no directory of the maximal size is full. -/
structure TreeCall.Fits (m : Mem) (c : TreeCall) : Prop where
  string : 0#8 ∉ c.path
  room : c.need m ≤ (freeBlocks m).length
  below : ∀ d, FileAt m d → fType m d = ftypeDir → ¬ DirFull m d

def TreeCall.Right (m m' : Mem) (r : Except Int Nat) : TreeCall → Prop
  | .create path => CreateRight m path m' r
  | .openFile path => OpenRight m path m' r

def TreeStep (m m' : Mem) : Prop := ∃ (c : TreeCall) (r : Except Int Nat), c.Fits m ∧ c.run m = some (m', r)

theorem TreeCall.run_right {m m' : Mem} {c : TreeCall} {r : Except Int Nat} (ht : Tree m) (hc : c.Fits m)
    (h : c.run m = some (m', r)) : Tree m' ∧ c.Right m m' r := by
  cases c with
  | create path => exact fileCreate_right ht hc.string hc.below h
  | openFile path => exact fileOpen_right ht hc.string h

theorem TreeCall.returns {m : Mem} {c : TreeCall} (ht : Tree m) (hc : c.Fits m) :
    ∃ m' r, c.run m = some (m', r) := by
  have hs := ht.sound
  cases c with
  | create path =>
      cases hrun : fileCreate m path with
      | some res => exact ⟨res.1, res.2, hrun⟩
      | none =>
          have hfull := (@FsCall.run_none_iff m (.create path) hs hc.string).mp (by
            rw [FsCall.run, hrun]
            rfl)
          exact absurd hc.room (Nat.not_le_of_lt hfull)
  | openFile path =>
      obtain ⟨m', hrun⟩ := (walkPath_resolves hs hc.string hc.room).1
      refine ⟨m', (resolve m none sRoot (pathNames path)).file, ?_⟩
      have hpath : walkPath m path = some (m', resolve m none sRoot (pathNames path)) := hrun
      rw [TreeCall.run, fileOpen, hpath]
      rfl

/-- A directory tree stays one over every sequence of `file_create` and `file_open`, and each call
does what it should. -/
theorem create_keeps_tree {m0 m : Mem} (ht : Tree m0) (hrun : Relation.ReflTransGen TreeStep m0 m) :
    Tree m ∧ ∀ c : TreeCall, c.Fits m → ∃ m' r, c.run m = some (m', r) ∧ c.Right m m' r := by
  have htree : Tree m := by
    induction hrun with
    | refl => exact ht
    | tail _ hstep ih =>
        obtain ⟨c, r, hc, hcall⟩ := hstep
        exact (TreeCall.run_right ih hc hcall).1
  refine ⟨htree, fun c hc => ?_⟩
  obtain ⟨m', r, hcall⟩ := TreeCall.returns htree hc
  exact ⟨m', r, hcall, (TreeCall.run_right htree hc hcall).2⟩

/-! ## An empty disk -/

/-- Sixteen blocks, and a root without blocks. -/
def emptyDisk : Mem :=
  [(superAddr + 4, 16#32), (bitmapWord 0, 0xFFF8#32), (sRoot + 132, ftypeDir)].foldl
    (fun m w => Mem.write32 m w.1 w.2) fun _ => 0

theorem emptyDisk_blockPtr (k : Nat) : blockPtr emptyDisk sRoot k = 0 := by
  have hdirect : ∀ i < ndirect, emptyDisk.read32 (fDirect sRoot i) = 0#32 := by decide +kernel
  unfold blockPtr
  split
  · rename_i hlt
    rw [hdirect k hlt]
    rfl
  · rfl

theorem emptyDisk_fileAt {f : Nat} (h : FileAt emptyDisk f) : f = sRoot := by
  induction h with
  | root => rfl
  | @entry d i j _ _ _ hb _ ih =>
      subst ih
      exact absurd (emptyDisk_blockPtr i) hb

theorem emptyDisk_value {p : Place} (hp : p.Valid emptyDisk) : p.value emptyDisk = 0 := by
  cases p with
  | direct f i =>
      obtain ⟨hf, hi⟩ := hp
      cases emptyDisk_fileAt hf
      have h := emptyDisk_blockPtr i
      rwa [blockPtr, if_pos hi] at h
  | indirect f =>
      cases emptyDisk_fileAt hp
      decide +kernel
  | entry f k =>
      obtain ⟨hf, hind, _⟩ := hp
      cases emptyDisk_fileAt hf
      exact absurd (by decide +kernel) hind

theorem emptyDisk_tree : Tree emptyDisk := by
  have hsize : fSize emptyDisk sRoot = 0#32 := by decide +kernel
  have hbyte : ∀ i, fileByte emptyDisk sRoot i = 0#8 := by
    intro i
    rw [fileByte, if_pos (emptyDisk_blockPtr _)]
    rfl
  refine ⟨⟨⟨by decide +kernel, by decide +kernel, fun p hp hv => ?_, fun p hp hv => ?_, fun p hp hv => ?_,
    fun p q hp _ hv _ => ?_⟩, fun f hf => ?_, fun d hd _ => ?_⟩, fun d hd _ name hname e e' _ _ hat => ?_,
    fun d hd _ e _ _ c _ => ?_⟩
  · exact absurd (emptyDisk_value hp) hv
  · exact absurd (emptyDisk_value hp) hv
  · exact absurd (emptyDisk_value hp) hv
  · exact absurd (emptyDisk_value hp) hv
  · rw [emptyDisk_fileAt hf, hsize]
    exact Nat.zero_le _
  · rw [emptyDisk_fileAt hd, Aligned, hsize]
    rfl
  · have hzero : nameAt emptyDisk sRoot name e = false := bytesAre_zero hname (hbyte _)
    rw [emptyDisk_fileAt hd, hzero] at hat
    cases hat
  · rw [emptyDisk_fileAt hd]
    exact hbyte _

theorem emptyDisk_fits : (TreeCall.create [97#8]).Fits emptyDisk := by
  refine ⟨by simp [TreeCall.path], by decide +kernel, fun d hd _ hfull => ?_⟩
  rw [emptyDisk_fileAt hd] at hfull
  have hblocks : dirBlocks emptyDisk sRoot = 0 := by decide +kernel
  have hmax := hfull.1
  rw [hblocks] at hmax
  exact absurd hmax (by decide)

/-- The file `/a` is created. -/
theorem create_keeps_tree_small : ∃ m' g, fileCreate emptyDisk [97#8] = some (m', .ok g) ∧
    Leads m' [slash, 97#8, slash] g := by
  obtain ⟨_, hcall⟩ := create_keeps_tree emptyDisk_tree .refl
  obtain ⟨m', r, hrun, hright⟩ := hcall _ emptyDisk_fits
  have hok : (fileCreate emptyDisk [97#8]).any (fun res => res.2.isOk) = true := by decide +kernel
  rw [TreeCall.run] at hrun
  rw [hrun] at hok
  cases r with
  | error q => cases hok
  | ok g => exact ⟨m', g, hrun, CreateRight.spelling hright g rfl _ (by decide)⟩

/-- The root gets a block for the new entry: the `struct File` that `/` leads to changes. -/
theorem create_changes_root : Tree emptyDisk ∧ (TreeCall.create [97#8]).Fits emptyDisk ∧
    Leads emptyDisk [slash] sRoot ∧ pathNames [slash] ≠ pathNames [97#8] ∧
    ∃ m' g, fileCreate emptyDisk [97#8] = some (m', .ok g) ∧ ¬ SameHeader emptyDisk m' sRoot := by
  have hrun : (fileCreate emptyDisk [97#8]).any (fun res => res.2.isOk &&
      (res.1 (sRoot + 129) != emptyDisk (sRoot + 129))) = true := by decide +kernel
  refine ⟨emptyDisk_tree, emptyDisk_fits, rfl, by decide, ?_⟩
  obtain ⟨⟨m', r⟩, hcall, hres⟩ := (Option.any_eq_true _ _).mp hrun
  cases r with
  | error q => cases hres
  | ok g =>
      refine ⟨m', g, hcall, fun hsame => ?_⟩
      simp only [Bool.and_eq_true, bne_iff_ne] at hres
      exact hres.2 (hsame 129 (by decide))

end Jos.Fs
