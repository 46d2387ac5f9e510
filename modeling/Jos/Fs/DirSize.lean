import Jos.Fs.Entries
import Jos.Fs.Requests

/-!
# The size of a directory

`dir_lookup` and `dir_alloc_file` assert that the size of a directory is a multiple of the block
size. The handlers do not ask for the type of a file: a directory can be opened, and then
`serve_set_size`, `serve_write` and `O_TRUNC` treat it as any other file. Where a request does not
do that, and does not copy out of the page or out of the file, the size of every directory stays
a multiple of the block size.

Main results:
* `Serves.inv`: what every request of a run keeps;
* `directory_size_aligned`: the sizes in every state of a run;
* `directory_size_not_aligned`: two requests after which a third one stops the server.
-/

namespace Jos.Fs

open Jos.Lib

/-! ## Reading and writing -/

/-- A range that is not copied to a place before the file. -/
def WriteFits (offset count : BitVec 32) : Prop :=
  ¬ (-4096 < offset.toInt ∧ offset.toInt < 0 ∧ count ≠ 0#32 ∧ offset.toInt + count.toNat < 0)

instance (offset count : BitVec 32) : Decidable (WriteFits offset count) :=
  inferInstanceAs (Decidable (¬ _))

/-- A read that ends in the page. -/
def ReadFitsPage (m : Mem) (f : Nat) (offset count : BitVec 32) : Prop :=
  (fSize m f).sle offset ∨ (readCount m f count offset).toNat ≤ 4096

instance (m : Mem) (f : Nat) (offset count : BitVec 32) :
    Decidable (ReadFitsPage m f offset count) := inferInstanceAs (Decidable (_ ∨ _))

section

variable {m m' : Mem} {f buf e : Nat} {offset count : BitVec 32} {r : Int}

theorem writeLoop_entriesKept {pos ending : BitVec 32} {res : Except Int Unit} (hw : Wf m)
    (hf : FileAt m f) (hreg : fType m f ≠ ftypeDir) (hpos : pos.toNat < 2147483648)
    (h : writeLoop f ending copyFuel m buf pos = some (m', e, res)) : EntriesKept m m' := by
  rw [writeLoop] at h
  refine copyLoop_keeps (Q := fun m1 => EntriesKept m m1)
    (fun hQ => ⟨hQ.kept.wf, hQ.kept.files f hf⟩) ?_ hpos (.refl hw) h
  intro p b m1 m2 n hQ hgot _ hn _ hmax
  have hi : p / 4096 < maxblocks := by
    simp only [maxblocks, maxfilesize] at hmax ⊢
    omega
  have hw1 := hQ.kept.wf
  have hf1 := hQ.kept.files f hf
  have h2 := hgot.grows.entriesKept hw1
  have hf2 := h2.kept.files f hf1
  have hreg2 : fType m2 f ≠ ftypeDir := by
    rw [h2.kept.type f hf1, hQ.kept.type f hf]
    exact hreg
  have ha : blockAddr (blockPtr m2 f (p / 4096)) ≤ byteAddr m2 f p := Nat.le_add_right _ _
  have ha' : byteAddr m2 f p + n ≤ blockAddr (blockPtr m2 f (p / 4096)) + 4096 := by
    rw [byteAddr]
    omega
  exact ⟨(unmoved_data b h2.kept.wf hf2 hreg2 hi hgot.ptr_ne ha ha').1,
    (hQ.trans h2).trans (entriesKept_data b h2.kept.wf hf2 hreg2 hi hgot.ptr_ne ha ha')⟩

theorem fileWrite_entriesKept (hw : Wf m) (hf : FileAt m f) (hreg : fType m f ≠ ftypeDir)
    (hfit : WriteFits offset count) (h : fileWrite m f buf count offset = some (m', e, r)) :
    EntriesKept m m' := by
  rw [fileWrite_eq] at h
  obtain ⟨m1, hset, h⟩ := Option.bind_eq_some_iff.mp h
  obtain ⟨⟨m2, e', r'⟩, hloop, h⟩ := Option.bind_eq_some_iff.mp h
  cases h
  have h1 : EntriesKept m m1 := by
    split at hset
    · exact fileSetSize_entriesKept hw hf (fun hdir => absurd hdir hreg) hset
    · cases hset
      exact .refl hw
  by_cases hoff : 0 ≤ offset.toInt
  · have hreg1 : fType m1 f ≠ ftypeDir := by
      rw [h1.kept.type f hf]
      exact hreg
    exact h1.trans (writeLoop_entriesKept h1.kept.wf (h1.kept.files f hf) hreg1
      (nonneg_toNat hoff).2 hloop)
  -- At a negative offset nothing is copied.
  · have hneg : offset.toInt < 0 := by omega
    rw [writeLoop, copyFuel] at hloop
    by_cases hwrap : count = 0#32 ∨ 0 ≤ offset.toInt + count.toNat
    · rw [copyLoop_skip hneg hwrap] at hloop
      cases hloop
      exact h1
    · simp only [not_or] at hwrap
      have hle : offset.toInt ≤ -4096 := by
        by_contra hgt
        exact hfit ⟨by omega, hneg, hwrap.1, by omega⟩
      rw [copyLoop_refused hle hwrap.1 (by omega)] at hloop
      cases hloop
      exact h1

/-- The part of a range that is left, and what a round takes of it. -/
theorem chunk_le (pos ending : BitVec 32) : (chunk pos ending).toNat ≤ (ending - pos).toNat := by
  simp only [chunk]
  split
  · rename_i hle
    exact hle
  · exact Nat.le_refl _

theorem left_after (pos ending : BitVec 32) :
    (ending - (pos + chunk pos ending)).toNat =
      (ending - pos).toNat - (chunk pos ending).toNat := by
  have hle := chunk_le pos ending
  generalize chunk pos ending = c at hle ⊢
  bv_omega

/-- A copy that ends below the disk, wherever its bytes come from. -/
theorem readLoop_entriesKept {fuel : Nat} {pos ending : BitVec 32} {res : Except Int Unit}
    (hw : Wf m) (hf : FileAt m f) (hbuf : buf + (ending - pos).toNat ≤ diskmap)
    (h : readLoop f ending fuel m buf pos = some (m', e, res)) : EntriesKept m m' := by
  induction fuel generalizing m buf pos with
  | zero => cases h
  | succ fuel ih =>
      rw [readLoop, copyLoop] at h
      split at h
      · simp only [Option.bind_eq_bind, Option.bind_eq_some_iff] at h
        obtain ⟨⟨m1, q⟩, hget, h⟩ := h
        have h1 := fileGetBlock_entriesKept hw hf hget
        cases q with
        | error e =>
            cases h
            exact h1
        | ok blk =>
            have hle := chunk_le pos ending
            have hmove : SameDisk m1 (m1.move buf (blkPos blk pos) (chunk pos ending).toNat) :=
              sameDisk_move (Or.inl (by omega))
            have h2 := h1.trans (hmove.entriesKept h1.kept.wf)
            refine h2.trans (ih h2.kept.wf (h2.kept.files f hf) ?_ h)
            rw [left_after]
            omega
      · cases h
        exact .refl hw

theorem fileRead_entriesKept (hw : Wf m) (hf : FileAt m f) (hfit : ReadFitsPage m f offset count)
    (h : fileRead m f fsreq count offset = some (m', e, r)) : EntriesKept m m' := by
  rw [fileRead] at h
  split at h
  · cases h
    exact .refl hw
  · rename_i hsize
    simp only [Option.bind_eq_bind, Option.bind_eq_some_iff] at h
    obtain ⟨⟨m1, e1, r1⟩, hloop, h⟩ := h
    cases h
    refine readLoop_entriesKept hw hf ?_ hloop
    have hpage : fsreq + 4096 = diskmap := rfl
    have hcount := hfit.resolve_left hsize
    rw [BitVec.add_comm, BitVec.add_sub_cancel]
    omega

/-! ## The handlers -/

variable {s : Server} {ipc : Nat} {o : OpenFile}

theorem sameDisk_write32 {a : Nat} (ha : diskmap + disksize ≤ a) (v : BitVec 32) :
    SameDisk m (m.write32 a v) :=
  fun _ _ hx => Mem.write32_of_disjoint _ _ (by omega)

/-- A read or write whose copy keeps the entries. -/
theorem serveCopy_entriesKept
    {copy : Mem → Nat → Nat → BitVec 32 → BitVec 32 → Option (Mem × Nat × Int)} (hw : Wf m)
    (hcopy : ∀ o m1, openfileLookup s (reqFileid m ipc) = .ok o →
      copy m o.file buf (reqN m ipc) (fdOffset m o) = some (m1, e, r) → EntriesKept m m1)
    (h : serveCopy copy s m ipc buf = some (m', e, r)) : EntriesKept m m' := by
  cases ho : openfileLookup s (reqFileid m ipc) with
  | error q =>
      rw [serveCopy, ho] at h
      cases h
      exact .refl hw
  | ok o =>
      obtain ⟨m1, hrun, rfl⟩ := serveCopy_ok ho h
      have h1 := hcopy o m1 ho hrun
      split
      · exact h1
      · have hfd := openfileLookup_fd ho
        exact h1.trans ((sameDisk_write32 (by omega) _).entriesKept h1.kept.wf)

/-- A terminated name fits into its field. -/
theorem strAt_length {a k n : Nat} (hz : m (a + k) = 0#8) : (strAt m a n).length ≤ k := by
  induction n generalizing a k with
  | zero => exact Nat.zero_le _
  | succ n ih =>
      rw [strAt]
      split
      · exact Nat.zero_le _
      · rename_i hne
        cases k with
        | zero => exact absurd hz hne
        | succ k =>
            have := ih (a := a + 1) (k := k) (by rw [← hz]; congr 1; omega)
            rw [List.length_cons]
            omega

theorem serveStat_sameDisk (hname : ∀ o, openfileLookup s (reqFileid m fsreq) = .ok o →
    NameEnds m o.file) : SameDisk m (serveStat s m fsreq).1 := by
  have hpage : fsreq + 4096 = diskmap := rfl
  rw [serveStat]
  cases ho : openfileLookup s (reqFileid m fsreq) with
  | error q => exact fun _ _ _ => rfl
  | ok o =>
      obtain ⟨k, hk, hz⟩ := hname o ho
      simp only [maxnamelen] at hk
      have hlen : (cString m o.file).length ≤ k := strAt_length hz
      intro x hx _
      dsimp only
      rw [Mem.write32_of_disjoint _ _ (by omega), Mem.write32_of_disjoint _ _ (by omega), strcpy,
        if_neg (by omega)]

theorem openOrCreate_leadsTo {path : List (BitVec 8)} {omode : BitVec 32} {q : Except Int Nat}
    (hw : Wf m) (h : openOrCreate m path omode = some (m', q)) : LeadsTo m m' q := by
  rw [openOrCreate] at h
  split at h
  · exact fileOpen_leadsTo hw h
  · simp only [Option.bind_eq_bind, Option.bind_eq_some_iff] at h
    obtain ⟨⟨m1, q1⟩, hcreate, h⟩ := h
    have h1 := fileCreate_leadsTo hw hcreate
    cases q1 with
    | ok f =>
        cases h
        exact h1
    | error r =>
        simp only at h
        split at h
        · exact .trans h1.1 (fileOpen_leadsTo (h1.1.entriesKept hw).kept.wf h)
        · cases h
          exact h1

theorem openfileLookup_slot (h : openfileLookup s count = .ok o) :
    ∃ i < maxopen, o = s.opentab i ∧ 1 < s.pageref o.fd := by
  rw [openfileLookup] at h
  split at h
  · cases h
  · rename_i hne
    cases h
    exact ⟨_, Nat.mod_lt _ (by decide), rfl, by omega⟩

end

/-! ## Runs -/

/-- What holds between two requests. A slot that had no file yet was not sent to anybody. -/
structure ServInv (s : Server) (m : Mem) : Prop where
  wf : Wf m
  aligned : ∀ f, FileAt m f → fType m f = ftypeDir → Aligned m f
  name : ∀ f, FileAt m f → NameEnds m f
  slot : ∀ i < maxopen,
    ((s.opentab i).file = 0 ∧ s.pageref (s.opentab i).fd ≤ 1) ∨ FileAt m (s.opentab i).file

section

variable {s s' : Server} {m m' : Mem}

/-- The disk part of the invariant. -/
theorem ServInv.disk (h : ServInv s m) (hk : EntriesKept m m') :
    Wf m' ∧ (∀ f, FileAt m' f → fType m' f = ftypeDir → Aligned m' f) ∧
      ∀ f, FileAt m' f → NameEnds m' f := by
  refine ⟨hk.kept.wf, fun f hf hdir => ?_, fun f hf => ?_⟩
  · rcases hk.new f hf with hf0 | ⟨hreg, _⟩
    · rw [hk.kept.type f hf0] at hdir
      exact hk.size f hf0 hdir (h.aligned f hf0 hdir)
    · exact absurd hdir hreg
  · rcases hk.new f hf with hf0 | ⟨_, hend⟩
    · exact hk.name f hf0 (h.name f hf0)
    · exact hend

theorem ServInv.kept (h : ServInv s m) (hk : EntriesKept m m') : ServInv s m' := by
  obtain ⟨hw, ha, hn⟩ := h.disk hk
  refine ⟨hw, ha, hn, fun i hi => ?_⟩
  rcases h.slot i hi with hslot | hfile
  · exact Or.inl hslot
  · exact Or.inr (hk.kept.files _ hfile)

theorem ServInv.clients (h : ServInv s m) (hc : Clients s m s' m') : ServInv s' m' := by
  have hk := h.kept (hc.disk.entriesKept h.wf)
  refine ⟨hk.wf, hk.aligned, hk.name, fun i hi => ?_⟩
  rw [hc.opentab]
  rcases hk.slot i hi with ⟨hfile, href⟩ | hfile
  · refine Or.inl ⟨hfile, ?_⟩
    rw [hc.pageref i hi hfile]
    exact href
  · exact Or.inr hfile

/-- The file of an open file. -/
theorem ServInv.opened {n : BitVec 32} {o : OpenFile} (h : ServInv s m)
    (ho : openfileLookup s n = .ok o) : FileAt m o.file := by
  obtain ⟨i, hi, rfl, href⟩ := openfileLookup_slot ho
  rcases h.slot i hi with ⟨_, hle⟩ | hfile
  · omega
  · exact hfile

/-! ### Opening a file -/

theorem freeSlot_lt {i : Nat} (h : freeSlot s = some i) : i < maxopen := by
  rw [freeSlot] at h
  exact List.mem_range.mp (List.mem_of_find?_eq_some h)

theorem sameDisk_fd {i : Nat} (hi : i < maxopen) : diskmap + disksize ≤ (s.opentab i).fd := by
  rw [s.fd_eq i hi]
  exact Nat.le_add_right _ _

/-- Another file id for a slot, and its page mapped by the server alone. -/
theorem ServInv.alloc {i : Nat} {id : BitVec 32} {a : Nat} (h : ServInv s m) :
    ServInv ((s.put i id (s.opentab i).file).mapped a) m := by
  refine ⟨h.wf, h.aligned, h.name, fun j hj => ?_⟩
  simp only [Server.mapped, Server.put]
  have hslot := h.slot j hj
  by_cases hij : j = i
  · subst hij
    rw [if_pos rfl]
    refine hslot.imp_left fun hfree => ⟨hfree.1, ?_⟩
    split
    · exact Nat.le_refl _
    · exact hfree.2
  · rw [if_neg hij]
    refine hslot.imp_left fun hfree => ⟨hfree.1, ?_⟩
    split
    · exact Nat.le_refl _
    · exact hfree.2

theorem openfileAlloc_inv {page : Bool} {q : Except Int Nat} (h : ServInv s m)
    (hrun : openfileAlloc page s m = (s', m', q)) :
    ServInv s' m' ∧ ∀ i, q = .ok i → i < maxopen := by
  unfold openfileAlloc at hrun
  cases hfree : freeSlot s with
  | none =>
    rw [hfree] at hrun
    cases hrun
    exact ⟨h, fun i hi => by cases hi⟩
  | some i =>
    have hlt := freeSlot_lt hfree
    rw [hfree] at hrun
    simp only at hrun
    split at hrun
    · cases hrun
      exact ⟨h, fun i hi => by cases hi⟩
    · cases hrun
      have hfd := sameDisk_fd (s := s) hlt
      have hsame : SameDisk m (m.fill (s.opentab i).fd 0 4096) :=
        fun x _ hx => Mem.fill_of_disjoint _ _ (Or.inl (by omega))
      refine ⟨(h.kept (hsame.entriesKept h.wf)).alloc, fun j hj => ?_⟩
      cases hj
      exact hlt

theorem sameDisk_fillFd {fd : Nat} {id omode : BitVec 32} (hfd : diskmap + disksize ≤ fd) :
    SameDisk m (fillFd m fd id omode) := by
  intro x _ hx
  rw [fillFd, Mem.write32_of_disjoint _ _ (by omega), Mem.write32_of_disjoint _ _ (by omega),
    Mem.write32_of_disjoint _ _ (by omega)]

theorem ServInv.put {i f : Nat} {id : BitVec 32} (h : ServInv s m) (hf : FileAt m f) :
    ServInv (s.put i id f) m := by
  refine ⟨h.wf, h.aligned, h.name, fun j hj => ?_⟩
  simp only [Server.put]
  split
  · exact Or.inr hf
  · exact h.slot j hj

theorem serveOpen_inv {page : Bool} {reply : Reply} (h : ServInv s m)
    (hok : reqOmode m fsreq &&& oTrunc ≠ 0#32 → ∀ m1 f,
      openOrCreate (openfileAlloc page s m).2.1 (reqPath m fsreq) (reqOmode m fsreq) =
        some (m1, .ok f) → SizeOk m1 f 0#32)
    (hrun : serveOpen page s m fsreq = some reply) : ServInv reply.srv reply.mem := by
  unfold serveOpen at hrun
  generalize reqPath m fsreq = path at hrun hok
  generalize reqOmode m fsreq = omode at hrun hok
  generalize halloc : openfileAlloc page s m = res at hrun hok
  obtain ⟨s1, m1, q⟩ := res
  obtain ⟨h1, hslot⟩ := openfileAlloc_inv h halloc
  cases q with
  | error r =>
      cases hrun
      exact h1
  | ok i =>
      have hi := hslot i rfl
      simp only at hrun
      split at hrun
      · cases hrun
        exact h1
      simp only [Option.bind_eq_bind, Option.bind_eq_some_iff] at hrun
      obtain ⟨⟨m2, q2⟩, hopen, hrun⟩ := hrun
      have hfound := (openOrCreate_leadsTo h1.wf hopen).foundIn h1.wf
      have h2 := h1.kept hfound.1
      cases q2 with
      | error r =>
          cases hrun
          exact h2
      | ok f =>
          simp only [Option.bind_eq_some_iff] at hrun
          obtain ⟨m3, htrunc, ⟨m4, q4⟩, hagain, hrun⟩ := hrun
          have h3 : EntriesKept m2 m3 := by
            rw [truncateOpened] at htrunc
            split at htrunc
            · cases htrunc
              exact .refl h2.wf
            · rename_i hmode
              exact fileSetSize_entriesKept h2.wf (hfound.2 f rfl) (hok hmode m2 f hopen) htrunc
          have hfound4 := (fileOpen_leadsTo h3.kept.wf hagain).foundIn h3.kept.wf
          have h4 := (h2.kept h3).kept hfound4.1
          cases q4 with
          | error r =>
              cases hrun
              exact h4
          | ok g =>
              cases hrun
              have hsame : SameDisk m4
                  (fillFd m4 (s1.opentab i).fd (s1.opentab i).fileid omode) :=
                sameDisk_fillFd (sameDisk_fd hi)
              have hfill := hsame.entriesKept h4.wf
              exact (h4.kept hfill).put (hfill.kept.files g (hfound4.2 g rfl))

end

/-- A request that treats no directory as a file, and that copies neither out of the page nor to
a place before the file. -/
structure RequestOk (page : Bool) (s : Server) (m : Mem) (req : BitVec 32) : Prop where
  trunc : req = fsreqOpen → reqOmode m fsreq &&& oTrunc ≠ 0#32 → ∀ m1 f,
    openOrCreate (openfileAlloc page s m).2.1 (reqPath m fsreq) (reqOmode m fsreq) =
      some (m1, .ok f) → SizeOk m1 f 0#32
  setSize : req = fsreqSetSize → ∀ o, openfileLookup s (reqFileid m fsreq) = .ok o →
    SizeOk m o.file (m.read32 (fsreq + 4))
  read : req = fsreqRead → ∀ o, openfileLookup s (reqFileid m fsreq) = .ok o →
    ReadFitsPage m o.file (fdOffset m o) (reqN m fsreq)
  write : req = fsreqWrite → ∀ o, openfileLookup s (reqFileid m fsreq) = .ok o →
    fType m o.file ≠ ftypeDir ∧ WriteFits (fdOffset m o) (reqN m fsreq)

section

variable {s s' : Server} {m m' : Mem}

theorem serveSetSize_inv {r : Int} (h : ServInv s m)
    (hok : ∀ o, openfileLookup s (reqFileid m fsreq) = .ok o →
      SizeOk m o.file (m.read32 (fsreq + 4)))
    (hrun : serveSetSize s m fsreq = some (m', r)) : ServInv s m' := by
  rw [serveSetSize] at hrun
  cases ho : openfileLookup s (reqFileid m fsreq) with
  | error q =>
      rw [ho] at hrun
      cases hrun
      exact h
  | ok o =>
      rw [ho] at hrun
      obtain ⟨m1, hset, hrun⟩ := Option.map_eq_some_iff.mp hrun
      cases hrun
      exact h.kept (fileSetSize_entriesKept h.wf (h.opened ho) (hok o ho) hset)

theorem serve_inv {page : Bool} {req : BitVec 32} {reply : Reply} (h : ServInv s m)
    (hok : RequestOk page s m req) (hrun : serve page s m req = some reply) :
    ServInv reply.srv reply.mem := by
  unfold serve at hrun
  split at hrun
  · rename_i heq
    exact serveOpen_inv h (hok.trunc heq) hrun
  split at hrun
  · rename_i heq
    obtain ⟨⟨m1, r⟩, hset, rfl⟩ := Option.map_eq_some_iff.mp hrun
    exact serveSetSize_inv h (hok.setSize heq) hset
  split at hrun
  · rename_i heq
    obtain ⟨⟨m1, e, r⟩, hread, rfl⟩ := Option.map_eq_some_iff.mp hrun
    exact h.kept (serveCopy_entriesKept h.wf
      (fun o m2 ho => fileRead_entriesKept h.wf (h.opened ho) (hok.read heq o ho)) hread)
  split at hrun
  · rename_i heq
    obtain ⟨⟨m1, e, r⟩, hwrite, rfl⟩ := Option.map_eq_some_iff.mp hrun
    exact h.kept (serveCopy_entriesKept h.wf (fun o m2 ho => fileWrite_entriesKept h.wf
      (h.opened ho) (hok.write heq o ho).1 (hok.write heq o ho).2) hwrite)
  split at hrun
  · cases hrun
    have hsame := serveStat_sameDisk (s := s) (m := m) fun o ho => h.name _ (h.opened ho)
    exact h.kept (hsame.entriesKept h.wf)
  -- The others change nothing.
  split at hrun
  · obtain ⟨r, _, rfl⟩ := Option.map_eq_some_iff.mp hrun
    exact h
  split at hrun
  · obtain ⟨r, _, rfl⟩ := Option.map_eq_some_iff.mp hrun
    exact h
  · cases hrun
    exact h

end

/-- The server after `fs_init` and `serve_init`, with a well-formed disk: the sizes of the
directories are multiples of the block size, the names are strings, and no file is open. -/
structure Started (s : Server) (m : Mem) : Prop where
  wf : Wf m
  aligned : ∀ f, FileAt m f → fType m f = ftypeDir → Aligned m f
  name : ∀ f, FileAt m f → NameEnds m f
  closed : ∀ i < maxopen, (s.opentab i).file = 0 ∧ s.pageref (s.opentab i).fd = 0

theorem Started.inv {s : Server} {m : Mem} (h : Started s m) : ServInv s m :=
  ⟨h.wf, h.aligned, h.name, fun i hi => Or.inl ⟨(h.closed i hi).1, by
    rw [(h.closed i hi).2]
    exact Nat.zero_le _⟩⟩

theorem Serves.inv {s0 s : Server} {m0 m : Mem} (hrun : Serves RequestOk s0 m0 s m)
    (h0 : Started s0 m0) : ServInv s m := by
  induction hrun with
  | start => exact h0.inv
  | clients _ hc ih => exact ih.clients hc
  | request _ hok hserve ih => exact serve_inv ih hok hserve

/-- In every run whose requests treat no directory as a file and copy nothing out of the page or
before the file, the size of every directory is a multiple of the block size, and neither
`dir_lookup` nor `dir_alloc_file` stops at its assertion. -/
theorem directory_size_aligned {s0 s : Server} {m0 m : Mem} (h0 : Started s0 m0)
    (hrun : Serves RequestOk s0 m0 s m) :
    ∀ f, FileAt m f → fType m f = ftypeDir → (fSize m f).toNat % 4096 = 0 ∧
      (∀ name, dirLookup m f name =
        dirLookupLoop f name m (List.range ((fSize m f).sdiv 4096#32).toNat)) ∧
      dirAllocFile m f =
        (dirAllocLoop f m (List.range ((fSize m f).sdiv 4096#32).toNat)).bind fun res =>
          match res with
          | (m1, some r) => some (m1, r)
          | (m1, none) => fileGetBlock (m1.write32 (f + 128) (fSize m1 f + 4096#32)) f
              ((fSize m f).sdiv 4096#32) := by
  intro f hf hdir
  have ha := (hrun.inv h0).aligned f hf hdir
  have hnot : ¬ (fSize m f).srem 4096#32 ≠ 0#32 := fun hne => hne ha
  refine ⟨(srem_eq_zero_iff _).mp ha, fun name => ?_, ?_⟩
  · rw [dirLookup, if_neg hnot]
  · rw [dirAllocFile, if_neg hnot]
    rfl

/-! ### A run on the small disk -/

/-- The table after `serve_init`. -/
def startServer : Server where
  opentab i := ⟨BitVec.ofNat 32 i, 0, fileva + 4096 * i⟩
  pageref _ := 0
  fd_eq _ _ := rfl

theorem smallDisk_started : Started startServer smallDisk := by
  have hentries : ∀ j < blkfiles, fType smallDisk (smallFile + 256 * j) ≠ ftypeDir ∧
      smallDisk (smallFile + 256 * j) = 0#8 := by decide +kernel
  refine ⟨smallDisk_wf, fun f hf hdir => ?_, fun f hf => ⟨0, by decide, ?_⟩, fun _ _ => ⟨rfl, rfl⟩⟩
  · rcases smallDisk_fileAt hf with rfl | ⟨j, hj, rfl⟩
    · decide +kernel
    · exact absurd hdir (hentries j hj).1
  · rcases smallDisk_fileAt hf with rfl | ⟨j, hj, rfl⟩
    · decide +kernel
    · exact (hentries j hj).2

/-- A request to open a path of one character. -/
def openReq (m : Mem) (c : BitVec 8) : Mem :=
  ((m.fill fsreq c 1).fill (fsreq + 1) 0#8 1).write32 (fsreq + maxpathlen) 0#32

/-- A request for the first slot with a number after the file id. -/
def slotReq (m : Mem) (n : BitVec 32) : Mem := (m.write32 fsreq 1024#32).write32 (fsreq + 4) n

/-- A client has got the `Fd` page of the first slot. -/
def handedOut (s : Server) : Server :=
  { s with pageref := fun a => if a = fileva then 2 else s.pageref a }

theorem openReq_clients (s : Server) (m : Mem) (c : BitVec 8) : Clients s m s (openReq m c) := by
  refine ⟨rfl, fun _ _ _ => rfl, fun x hx _ => ?_⟩
  have hpage : fsreq + 4096 = diskmap := rfl
  have hpath : maxpathlen = 1024 := rfl
  rw [openReq, Mem.write32_of_disjoint _ _ (by omega), Mem.fill_of_disjoint _ _ (by omega),
    Mem.fill_of_disjoint _ _ (by omega)]

theorem slotReq_clients {s : Server} (m : Mem) (n : BitVec 32) (hs : (s.opentab 0).file ≠ 0) :
    Clients s m (handedOut s) (slotReq m n) := by
  refine ⟨rfl, fun i hi hfile => ?_, fun x hx _ => ?_⟩
  · have hfd : (s.opentab i).fd ≠ fileva := by
      rw [s.fd_eq i hi]
      intro heq
      obtain rfl : i = 0 := by omega
      exact hs hfile
    exact if_neg hfd
  · have hpage : fsreq + 4096 = diskmap := rfl
    rw [slotReq, Mem.write32_of_disjoint _ _ (by omega), Mem.write32_of_disjoint _ _ (by omega)]

/-- The root is opened, and is a directory with a block. -/
theorem directory_size_aligned_small : ∃ reply,
    serve true startServer (openReq smallDisk slash) fsreqOpen = some reply ∧ reply.value = 0 ∧
      (fSize reply.mem sRoot).toNat % 4096 = 0 := by
  have hopen : (serve true startServer (openReq smallDisk slash) fsreqOpen).any (fun reply =>
      reply.value = 0 ∧ fType reply.mem sRoot = ftypeDir) = true := by decide +kernel
  simp only [Option.any_eq_true, decide_eq_true_eq] at hopen
  obtain ⟨reply, hserve, hvalue, hdir⟩ := hopen
  refine ⟨reply, hserve, hvalue, (directory_size_aligned smallDisk_started
    (.request (.clients .start (openReq_clients _ _ _)) ?_ hserve) sRoot .root hdir).1⟩
  refine ⟨fun _ htrunc => ?_, fun heq => ?_, fun heq => ?_, fun heq => ?_⟩
  · exact absurd htrunc (by decide +kernel)
  · exact absurd heq (by decide)
  · exact absurd heq (by decide)
  · exact absurd heq (by decide)

/-- A client opens the root and gives it the size 100; the next request to open a file, named
`x`, stops the server. -/
theorem directory_size_not_aligned : Started startServer smallDisk ∧
    ∃ s m, Serves (fun _ _ _ _ => True) startServer smallDisk s m ∧ FileAt m sRoot ∧
      fType m sRoot = ftypeDir ∧ (fSize m sRoot).toNat % 4096 ≠ 0 ∧
      serve true s (openReq m 120#8) fsreqOpen = none := by
  have hrun : (serve true startServer (openReq smallDisk slash) fsreqOpen).any (fun r1 =>
      (r1.srv.opentab 0).file ≠ 0 ∧
      (serve true (handedOut r1.srv) (slotReq r1.mem 100#32) fsreqSetSize).any (fun r2 =>
        fType r2.mem sRoot = ftypeDir ∧ (fSize r2.mem sRoot).toNat % 4096 ≠ 0 ∧
        (serve true r2.srv (openReq r2.mem 120#8) fsreqOpen).isNone)) = true := by
    decide +kernel
  simp only [Option.any_eq_true, decide_eq_true_eq, Option.isNone_iff_eq_none] at hrun
  obtain ⟨r1, hopen, hfile, r2, hset, hdir, hsize, hnone⟩ := hrun
  refine ⟨smallDisk_started, r2.srv, r2.mem, ?_, .root, hdir, hsize, hnone⟩
  exact .request (.clients (.request (.clients .start (openReq_clients _ _ _)) trivial hopen)
    (slotReq_clients _ _ hfile)) trivial hset

end Jos.Fs
