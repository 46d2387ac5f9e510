import Jos.Fs.Resolve
import Jos.Fs.SetSize

/-!
# Walking a path again

`walk_path` fills the holes of the directories that it looks into. When it has found a file, it finds
it again without taking a block, also after the file has been truncated: the names on the way are in
the directories above the file, and these stay as they are even if the file is itself a directory.
-/

namespace Jos.Fs

open Jos.Lib

/-- The names lead to `f`, and the directories on the way have the blocks that the look-ups read. -/
inductive Traced (m : Mem) : List (List (BitVec 8)) → Nat → Prop
  | root : Traced m [] sRoot
  | entry {names : List (List (BitVec 8))} {d e : Nat} {name : List (BitVec 8)}
      (h : Traced m names d) (hdir : fType m d = ftypeDir) (hname : NameOk name)
      (he : lookupEntry m d name = some e) (hpres : Present m d 0 (lookupEnd m d name)) :
      Traced m (names ++ [name]) (entryAt m d e)

section

variable {m m' m1 : Mem} {f g d b n : Nat} {p : Place} {dir : Option Nat}
  {name : List (BitVec 8)} {names names' : List (List (BitVec 8))} {w : Walk}

theorem Traced.reaches (h : Traced m names f) : Reaches m names f := by
  induction h with
  | root => exact .root
  | entry _ hdir hname he _ ih => exact .entry ih hdir hname he

/-! ## Walking -/

/-- The walk along the first names, then along the others. -/
theorem walkNames_append (h : walkNames m dir f names = some (m1, w)) (hok : w.file = .ok g) :
    walkNames m dir f (names ++ names') = walkNames m1 w.dir g names' := by
  induction names generalizing m dir f with
  | nil =>
      cases h
      cases hok
      rfl
  | cons name names ih =>
      rw [walkNames] at h
      rw [List.cons_append, walkNames]
      by_cases hlen : maxnamelen ≤ name.length
      · rw [if_pos hlen] at h
        cases h
        cases hok
      rw [if_neg hlen] at h ⊢
      by_cases hdir : fType m f ≠ ftypeDir
      · rw [if_pos hdir] at h
        cases h
        cases hok
      rw [if_neg hdir] at h ⊢
      obtain ⟨⟨m2, q⟩, hlook, h⟩ := Option.bind_eq_some_iff.mp h
      rw [hlook]
      cases q with
      | error r =>
          simp only at h
          split at h
          · cases h
            cases hok
          · cases h
            cases hok
      | ok x => exact ih h

theorem Present.missing_zero (h : Present m d 0 n) : missing m d 0 n = 0 := by
  have hfilter : (List.range' 0 (n - 0)).filter (fun j => blockPtr m d j = 0) = [] := by
    rw [List.filter_eq_nil_iff]
    intro j hj
    rw [List.mem_range'_1] at hj
    simpa using h j (Nat.zero_le _) (by omega)
  rw [missing, hfilter, if_neg]
  · rfl
  · rintro ⟨_, hlt, hind⟩
    refine h ndirect (Nat.zero_le _) hlt ?_
    rw [blockPtr, if_neg (by omega), if_pos hind]

/-- A look-up that needs no block. -/
theorem dirLookup_present (hw : Wf m) (hd : DirOk m d) (hname : NameOk name)
    (hpres : Present m d 0 (lookupEnd m d name)) :
    dirLookup m d name = some (m, searchResult m d (lookupEntry m d name)) := by
  have hneed : lookupNeed m d name = 0 := hpres.missing_zero
  rcases dirLookup_exact hw hd hname with ⟨hfull, _⟩ | ⟨m1, hrun, hsearched⟩
  · omega
  · have hgrow : Grows d m (lookupNeed m d name) m1 := hsearched.grows
    rw [hneed] at hgrow
    cases hgrow
    exact hrun

/-- The walk finds the file and leaves the memory as it is. -/
theorem Traced.walkNames (h : Traced m names f) (hw : Wf m) (hds : DirsOk m) :
    ∃ dir, walkNames m none sRoot names = some (m, ⟨.ok f, dir, []⟩) := by
  induction h with
  | root => exact ⟨none, rfl⟩
  | @entry names d e name h hdir hname he hpres ih =>
      obtain ⟨dir, hrun⟩ := ih
      refine ⟨some d, ?_⟩
      have hlen := hname.length_lt
      rw [walkNames_append hrun rfl, Jos.Fs.walkNames, if_neg (by omega), if_neg (by rw [hdir]; simp),
        dirLookup_present hw (hds d (h.reaches.fileAt hds) hdir) hname hpres, he]
      rfl

theorem Traced.fileOpen {path : List (BitVec 8)} (h : Traced m (pathNames path) f) (hw : Wf m)
    (hds : DirsOk m) : fileOpen m path = some (m, .ok f) := by
  obtain ⟨dir, hrun⟩ := h.walkNames hw hds
  rw [Jos.Fs.fileOpen, walkPath_eq, hrun]
  rfl

/-- The file stays where it is if the directories above it keep their names. -/
theorem Traced.congr (h : Traced m names f) (hds : DirsOk m)
    (hsame : ∀ d, FileAt m d → Relation.TransGen (Child m) d f → SameNames m m' d) :
    Traced m' names f := by
  induction h with
  | root => exact .root
  | @entry names d e name h hdir hname he hpres ih =>
      have hd := h.reaches.fileAt hds
      have hsize := (hds d hd hdir).size_le
      obtain ⟨_, _, hchild⟩ := lookupEntry_child hdir hsize hname he
      have hnames := hsame d hd (.single hchild)
      have hlook := hnames.lookupEntry_eq hsize hname
      have hend : lookupEnd m' d name = lookupEnd m d name := by
        rw [lookupEnd, lookupEnd, hlook, dirBlocks, dirBlocks, hnames.size]
      have hle : lookupEnd m d name ≤ maxblocks := by
        have hrange := entryFrom_range he
        have hblocks := dirBlocks_le hsize
        rw [lookupEnd, he, searchEnd]
        omega
      rw [← hnames.entryAt_eq hdir hsize hname he]
      refine .entry (ih fun d' hd' hbelow => hsame d' hd' (hbelow.tail hchild)) ?_ hname ?_ ?_
      · rw [hnames.type, hdir]
      · rw [hlook, he]
      · rw [hend]
        intro j hj hlt
        have hb := hpres j hj hlt
        rw [hnames.ptr j (by omega) hb]
        exact hb

/-- A walk that finds a file has filled the holes on its way. -/
theorem walkNames_traced (hw : Wf m) (hds : DirsOk m) (hr : Traced m names f)
    (hparts : ∀ name ∈ names', PartOk name) (h : walkNames m dir f names' = some (m', w))
    (hok : w.file = .ok g) : Traced m' (names ++ names') g ∧ Wf m' ∧ DirsOk m' := by
  induction names' generalizing m dir f names with
  | nil =>
      cases h
      cases hok
      rw [List.append_nil]
      exact ⟨hr, hw, hds⟩
  | cons name names' ih =>
      have hpart := hparts name List.mem_cons_self
      rw [walkNames] at h
      by_cases hlen : maxnamelen ≤ name.length
      · rw [if_pos hlen] at h
        cases h
        cases hok
      rw [if_neg hlen] at h
      by_cases hdir : fType m f ≠ ftypeDir
      · rw [if_pos hdir] at h
        cases h
        cases hok
      rw [if_neg hdir] at h
      rw [not_not] at hdir
      have hname : NameOk name := ⟨hpart.ne_nil, hpart.no_null, Nat.lt_of_not_le hlen⟩
      have hf := hr.reaches.fileAt hds
      have hd := hds f hf hdir
      rcases dirLookup_exact hw hd hname with ⟨_, hnone⟩ | ⟨m1, hrun, hsearched⟩
      · rw [hnone] at h
        cases h
      have hgrow : Grows f m (lookupNeed m f name) m1 := hsearched.grows
      have hnames := hgrow.sameNames hw hf hf
      have hr1 := hr.congr hds fun d hd _ => hgrow.sameNames hw hf hd
      rw [hrun] at h
      simp only [Option.bind_eq_bind, Option.bind_some] at h
      cases he : lookupEntry m f name with
      | none =>
          rw [he] at h
          simp only [searchResult] at h
          split at h
          · cases h
            cases hok
          · cases h
            cases hok
      | some e =>
          rw [he] at h
          have hlook := (hnames.lookupEntry_eq hd.size_le hname).trans he
          have hpres1 : Present m1 f 0 (lookupEnd m1 f name) := by
            have hend : lookupEnd m1 f name = lookupEnd m f name := by
              rw [lookupEnd, lookupEnd, hlook, he, dirBlocks, dirBlocks, hnames.size]
            rw [hend]
            exact hsearched.present
          rw [List.append_cons]
          exact ih (hgrow.wf hw) (hds.grows hw hgrow) (.entry hr1 (hnames.type.trans hdir) hname hlook hpres1)
            (fun n hn => hparts n (List.mem_cons_of_mem _ hn)) h

/-! ## Truncating the file -/

/-- Only files below the one that gives a block back can be lost. -/
theorem Released.fileAt_above (h : Released m p b m') (hw : Wf m) (hg : FileAt m g)
    (hno : ¬ Relation.TransGen (Child m) p.file g) : FileAt m' g := by
  induction hg with
  | root => exact .root
  | @entry d i j hd hdir hi hb hj ih =>
      have hchild : Child m d (blockAddr (blockPtr m d i) + 256 * j) := ⟨hdir, i, hi, hb, j, hj, rfl⟩
      have hne : p.file ≠ d := by
        rintro rfl
        exact hno (.single hchild)
      have hd' := ih fun hbelow => hno (hbelow.tail hchild)
      have hptr := h.blockPtr_keeps hw hd hd' hi hb (fun heq => hne (by rw [← heq, dataPlace_file]))
        fun heq => hne (by rw [heq]; rfl)
      rw [← hptr] at hb ⊢
      exact .entry hd' (((h.edited hw).type d hd).trans hdir) hi hb hj

theorem Released.sameNames (h : Released m p b m') (hw : Wf m) (hd : FileAt m d) (hd' : FileAt m' d)
    (hdir : fType m d = ftypeDir) (hne : d ≠ p.file) : SameNames m m' d := by
  have hed := h.edited hw
  have hptr : ∀ k < maxblocks, blockPtr m d k ≠ 0 → blockPtr m' d k = blockPtr m d k :=
    fun k hk hb => h.blockPtr_keeps hw hd hd' hk hb (fun heq => hne (by rw [← heq, dataPlace_file]))
      fun heq => hne (by rw [heq]; rfl)
  refine ⟨hed.type d hd, hed.size d hd, hptr, fun e he c hc => ?_⟩
  have hk : e / 16 < maxblocks := by omega
  have hdiv : (256 * e + c) / 4096 = e / 16 := by omega
  by_cases hb : blockPtr m d (e / 16) = 0
  · have hb' : blockPtr m' d (e / 16) = 0 := by
      by_contra hne'
      exact hne' ((h.blockPtr_cases hw hd hk hne').trans hb)
    rw [fileByte, fileByte, hdiv, if_pos hb, if_pos hb']
  · -- The byte is in the name of a file.
    have hg : FileAt m (entryAt m d e) := .entry hd hdir hk hb (Nat.mod_lt _ (by decide))
    have hold := fileByte_entry (c := c) hb (Nat.mod_lt e (show 0 < 16 by decide)) (by omega)
    have hnew := fileByte_entry (m := m') (c := c) (by rw [hptr _ hk hb]; exact hb)
      (Nat.mod_lt e (show 0 < 16 by decide)) (by omega)
    rw [Nat.div_add_mod] at hold hnew
    rw [hold, hnew, hptr _ hk hb]
    exact name_same hw h.valid hg (fun _ _ ha hdis _ => h.same_body hw ha hdis) c hc

/-- The file `f`, at the end of the names. -/
structure Trace (names : List (List (BitVec 8))) (f : Nat) (m : Mem) : Prop where
  wf : Wf m
  dirs : DirsOk m
  traced : Traced m names f

theorem Trace.released (h : Trace names f m) (hrel : Released m p b m') (hfile : p.file = f) :
    Trace names f m' := by
  have hw := h.wf
  have hds : DirsOk m' := by
    intro d hd hdir
    have hd0 := hrel.fileAt_of hw hd
    rw [(hrel.edited hw).type d hd0] at hdir
    have hok := h.dirs d hd0 hdir
    have hsize := (hrel.edited hw).size d hd0
    refine ⟨hd, ?_, ?_⟩
    · rw [Aligned, hsize]
      exact hok.aligned
    · rw [hsize]
      exact hok.size_le
  refine ⟨hrel.wf hw, hds, h.traced.congr h.dirs fun d hd habove => ?_⟩
  have hdir : fType m d = ftypeDir := by
    obtain ⟨x, hchild, _⟩ := Relation.TransGen.head'_iff.mp habove
    exact hchild.1
  -- A directory above `f` is not below it.
  refine hrel.sameNames hw hd (hrel.fileAt_above hw hd fun hbelow => ?_) hdir fun heq => ?_
  · rw [hfile] at hbelow
    exact hw.not_below_self hd (habove.trans hbelow)
  · rw [← hfile, ← heq] at habove
    exact hw.not_below_self hd habove

theorem Trace.fileAt (h : Trace names f m) : FileAt m f := h.traced.reaches.fileAt h.dirs

theorem Trace.truncateBlocks {s : BitVec 32} (h : Trace names f m)
    (hrun : fileTruncateBlocks m f s = some m') : Trace names f m' := by
  simp only [fileTruncateBlocks, Option.bind_eq_bind, Option.bind_eq_some_iff] at hrun
  obtain ⟨m1, hloop, hrun⟩ := hrun
  have h1 : Trace names f m1 := by
    refine foldlM_inv (Trace names f) ?_ hloop h
    intro bno m2 m3 hstep h2
    obtain ⟨⟨m4, r⟩, hfree, rfl⟩ := Option.map_eq_some_iff.mp hstep
    rcases fileFreeBlock_cases h2.wf h2.fileAt hfree with rfl | ⟨p, b, hfile, hrel⟩
    · exact h2
    · exact h2.released hrel hfile
  split at hrun
  · rename_i hind
    have hv : (Place.indirect f).value m1 ≠ 0 := fun hz => hind.2 (BitVec.eq_of_toNat_eq hz)
    simp only [Option.bind_eq_some_iff] at hrun
    obtain ⟨m2, hfree, hrun⟩ := hrun
    rw [freeBlock, show (indirect m1 f).toNat = (Place.indirect f).value m1 from rfl, if_neg hv] at hfree
    cases hfree
    cases hrun
    exact h1.released (released_place h1.wf (p := .indirect f) h1.fileAt hv) rfl
  · cases hrun
    exact h1

/-- The size of another file is in no name. -/
theorem sameNames_size (hw : Wf m) (hf : FileAt m f) (hg : FileAt m g) (hne : g ≠ f) (v : BitVec 32) :
    SameNames m (m.write32 (f + 128) v) g := by
  have hun := unmoved_size hw hf v
  have hre := rewritten_size hw hf v
  refine ⟨hun.type g hg, ?_, fun k hk _ => hun.blockPtr_eq hg hk,
    fun e he c hc => fileByte_name_size hw hf hg he hc v⟩
  rw [hre.size g hg, if_neg hne]

theorem Trace.size (h : Trace names f m) {v : BitVec 32} (hv : v.toNat ≤ maxfilesize)
    (hal : v.srem 4096#32 = 0#32) : Trace names f (m.write32 (f + 128) v) := by
  have hun := unmoved_size h.wf h.fileAt v
  have hre := rewritten_size h.wf h.fileAt v
  refine ⟨hun.wf h.wf, fun d hd hdir => ?_, h.traced.congr h.dirs fun d hd habove => ?_⟩
  · have hd0 := hun.fileAt_iff.mp hd
    rw [hun.type d hd0] at hdir
    have hok := h.dirs d hd0 hdir
    have hsize := hre.size d hd0
    refine ⟨hd, ?_, ?_⟩
    · rw [Aligned, hsize]
      split
      · exact hal
      · exact hok.aligned
    · rw [hsize]
      split
      · exact hv
      · exact hok.size_le
  · refine sameNames_size h.wf h.fileAt hd ?_ v
    rintro rfl
    exact h.wf.not_below_self hd habove

theorem Trace.truncated (h : Trace names f m) (hrun : fileSetSize m f 0#32 = some m') :
    Trace names f m' := by
  rw [fileSetSize] at hrun
  split at hrun
  · obtain ⟨m1, htrunc, hrun⟩ := Option.bind_eq_some_iff.mp hrun
    cases hrun
    exact (h.truncateBlocks htrunc).size (Nat.zero_le _) (by decide)
  · cases hrun
    exact h.size (Nat.zero_le _) (by decide)

/-- Truncating a file or a directory does not fail. -/
theorem fileSetSize_zero (hw : Wf m) (hf : FileAt m f) (hsize : (fSize m f).toNat ≤ maxfilesize) :
    ∃ m', fileSetSize m f 0#32 = some m' := by
  have has := asFile_untype hw hf
  have hrel := has.fileSetSize_same 0#32
  obtain ⟨m1, hrun, _⟩ := fileSetSize_resized 0#32 has.wf ⟨has.file, has.regular⟩
    (by rw [← has.fSize_eq]; exact hsize) (Nat.zero_le _)
  rw [hrun] at hrel
  generalize fileSetSize m f 0#32 = res at hrel ⊢
  cases hrel with
  | some h => exact ⟨_, rfl⟩

end

end Jos.Fs
