import Jos.Fs.Files

/-!
# The read and write requests of the file server

`serve_read` and `serve_write` of `fs/serv.c`. A client puts a request into the page at `fsreq`,
which is directly below the disk. Neither handler compares `req_n` with the size of the page:
the reply of a read is written to `ret_buf` as far as the file goes, and a write takes its bytes
from `req_buf` as far as the largest file goes. So both stay in the page exactly when the
request or the file ends it before.

Main results:
* `serve_in_page_iff`: which requests stay in their page;
* `serve_past_page`: two that do not.
-/

namespace Jos.Fs

open Jos.Lib

def maxopen : Nat := 1024
def fileva : Nat := 0xD0000000

/-- The page with the request of the client, `union Fsipc *fsreq`. -/
def fsreq : Nat := 0x0ffff000

structure OpenFile where
  fileid : BitVec 32
  /-- `o_file` -/
  file : Nat
  /-- `o_fd` -/
  fd : Nat

/-- The table of open files, with the `Fd` pages of `serve_init`, and `pageref` of `lib/pageref.c`. -/
structure Server where
  opentab : Nat → OpenFile
  pageref : Nat → Nat
  fd_eq : ∀ i < maxopen, (opentab i).fd = fileva + 4096 * i

/-- `openfile_lookup` -/
def openfileLookup (s : Server) (fileid : BitVec 32) : Except Int OpenFile :=
  let o := s.opentab (fileid.toNat % maxopen)
  if s.pageref o.fd ≤ 1 ∨ o.fileid ≠ fileid then .error (-eInval) else .ok o

/-- `o->o_fd->fd_offset` -/
def fdOffset (m : Mem) (o : OpenFile) : BitVec 32 := m.read32 (o.fd + 4)

/-- `req->req_fileid` and `req->req_n` of both requests. -/
def reqFileid (m : Mem) (ipc : Nat) : BitVec 32 := m.read32 ipc
def reqN (m : Mem) (ipc : Nat) : BitVec 32 := m.read32 (ipc + 4)

/-- The body of the two handlers: look up the file, copy between it and `buf`, and move the seek
position. The result has the end of the bytes used from `buf` on. -/
def serveCopy (copy : Mem → Nat → Nat → BitVec 32 → BitVec 32 → Option (Mem × Nat × Int))
    (s : Server) (m : Mem) (ipc buf : Nat) : Option (Mem × Nat × Int) :=
  match openfileLookup s (reqFileid m ipc) with
  | .error r => some (m, buf, r)
  | .ok o =>
      (copy m o.file buf (reqN m ipc) (fdOffset m o)).map fun (m, e, r) =>
        if r < 0 then (m, e, r)
        else (m.write32 (o.fd + 4) (fdOffset m o + BitVec.ofInt 32 r), e, r)

/-- `serve_read`; the reply overlays the request. -/
def serveRead (s : Server) (m : Mem) (ipc : Nat) : Option (Mem × Nat × Int) :=
  serveCopy fileRead s m ipc ipc

/-- `serve_write` -/
def serveWrite (s : Server) (m : Mem) (ipc : Nat) : Option (Mem × Nat × Int) :=
  serveCopy fileWrite s m ipc (ipc + 8)

/-- What a read of `n` bytes should do: stay in the page, return at most as many bytes as were
asked for and fit, move the seek position by as many, and hand out the bytes of the file. -/
structure ReadStays (m : Mem) (o : OpenFile) (n : BitVec 32) (m' : Mem) (e : Nat) (r : Int) :
    Prop where
  in_page : e ≤ fsreq + 4096
  le : r ≤ min (n.toNat : Int) 4096
  offset : fdOffset m' o = fdOffset m o + BitVec.ofInt 32 (max r 0)
  bytes : ∀ j : Nat, (j : Int) < r →
    m' (fsreq + j) = fileByte m o.file ((fdOffset m o).toNat + j)

/-- The bytes from `req_buf` to `e` are in the page. -/
def WriteStays (e : Nat) : Prop := e ≤ fsreq + 4096

/-- The size of a file; nothing can be read from a file of negative size. -/
def fileLength (m : Mem) (f : Nat) : Nat := (fSize m f).toInt.toNat

/-- The bytes of a read of `n` bytes at `off` in a file of the given size. -/
def readSpan (size n off : Nat) : Nat := min n (min (size - off) (maxfilesize - off))

section

variable {m m' : Mem} {f buf e : Nat} {n off : BitVec 32} {r : Int} {s : Server} {o : OpenFile}

theorem openfileLookup_fd (h : openfileLookup s n = .ok o) : diskmap + disksize ≤ o.fd := by
  rw [openfileLookup] at h
  split at h
  · cases h
  · cases h
    rw [s.fd_eq _ (Nat.mod_lt _ (by decide))]
    exact Nat.le_add_right _ _

/-! ## How far the requests go -/

theorem fileWrite_end (hoff : off.toNat < 2147483648)
    (h : fileWrite m f buf n off = some (m', e, r)) :
    e = buf + (stopAt off.toNat (off + n).toNat - off.toNat) := by
  rw [fileWrite_eq] at h
  obtain ⟨m1, _, h⟩ := Option.bind_eq_some_iff.mp h
  obtain ⟨⟨m2, e', r'⟩, hloop, h⟩ := Option.bind_eq_some_iff.mp h
  cases h
  exact (copyLoop_end hoff hloop).1

theorem fileLength_eq (hlt : off.toNat < fileLength m f) :
    (fSize m f).toNat = fileLength m f ∧ fileLength m f < 2147483648 := by
  have hint := BitVec.toInt_eq_toNat_cond (fSize m f)
  simp only [fileLength] at hlt ⊢
  split at hint
  · omega
  · omega

/-- The bounds of the loop of `file_read`, for a file that goes on after `off`. -/
theorem readCount_span (off : BitVec 32) (hlt : off.toNat < fileLength m f) :
    (readCount m f n off).toNat = min n.toNat (fileLength m f - off.toNat) ∧
      (off + readCount m f n off).toNat = off.toNat + (readCount m f n off).toNat ∧
      stopAt off.toNat (off + readCount m f n off).toNat =
        off.toNat + readSpan (fileLength m f) n.toNat off.toNat := by
  obtain ⟨hsize, hlen⟩ := fileLength_eq hlt
  have hcount := readCount_toNat (m := m) (f := f) n (show off.toNat < _ by omega)
  rw [readLength, hsize] at hcount
  have hle : (readCount m f n off).toNat ≤ fileLength m f - off.toNat := by
    rw [hcount]
    exact Nat.min_le_right _ _
  have hsum : (off + readCount m f n off).toNat = off.toNat + (readCount m f n off).toNat := by
    rw [BitVec.toNat_add]
    exact Nat.mod_eq_of_lt (by omega)
  refine ⟨hcount, hsum, ?_⟩
  rw [hsum, stopAt_add, hcount, readSpan, Nat.min_assoc]

theorem fileRead_eq (hoff : off.toNat < 2147483648) : fileRead m f buf n off =
    if fileLength m f ≤ off.toNat then some (m, buf, 0)
    else (readLoop f (off + readCount m f n off) copyFuel m buf off).map fun res =>
      (res.1, res.2.1, copyReturn (readCount m f n off) res.2.2) := by
  have hint := toInt_eq hoff
  have hlen : fileLength m f ≤ off.toNat ↔ (fSize m f).toInt ≤ off.toNat := by
    rw [fileLength]
    omega
  rw [fileRead, BitVec.sle_eq_decide, hint]
  simp only [decide_eq_true_eq]
  by_cases hle : (fSize m f).toInt ≤ (off.toNat : Int)
  · rw [if_pos hle, if_pos (hlen.mpr hle)]
  · rw [if_neg hle, if_neg fun h => hle (hlen.mp h)]
    cases readLoop f (off + readCount m f n off) copyFuel m buf off <;> rfl

theorem fileRead_end (hoff : off.toNat < 2147483648)
    (h : fileRead m f buf n off = some (m', e, r)) :
    e = buf + readSpan (fileLength m f) n.toNat off.toNat := by
  rw [fileRead_eq hoff] at h
  split at h
  · cases h
    simp only [readSpan]
    omega
  · rename_i hlt
    obtain ⟨⟨m1, e1, r1⟩, hloop, h⟩ := Option.map_eq_some_iff.mp h
    cases h
    obtain ⟨_, _, hstop⟩ := readCount_span (n := n) (m := m) (f := f) off (by omega)
    rw [(copyLoop_end hoff hloop).1, hstop, Nat.add_sub_cancel_left]

/-! ## A read that stays in the page -/

/-- What `file_read` returns when its buffer is not on the disk. -/
theorem fileRead_beside (hw : Wf m) (hf : FileAt m f) (hoff : off.toNat < 2147483648)
    (hbuf : Beside buf (readSpan (fileLength m f) n.toNat off.toNat))
    (h : fileRead m f buf n off = some (m', e, r)) :
    r ≤ readSpan (fileLength m f) n.toNat off.toNat ∧
      (∀ x, diskmap + disksize ≤ x → e ≤ x → m' x = m x) ∧
      ∀ j : Nat, (j : Int) < r → m' (buf + j) = fileByte m f (off.toNat + j) := by
  rw [fileRead_eq hoff] at h
  split at h
  · cases h
    exact ⟨by omega, fun _ _ _ => rfl, fun j hj => by omega⟩
  · rename_i hlt
    obtain ⟨hcount, hsum, hstop⟩ := readCount_span (n := n) (m := m) (f := f) off (by omega)
    have hloop := readLoop_cases buf hw hf hoff hstop (by
      rw [Nat.add_sub_cancel_left]
      exact hbuf)
    rw [Nat.add_sub_cancel_left] at hloop
    rcases hloop with ⟨_, _, hnone⟩ | ⟨m1, hrun, hto⟩
    · rw [hnone] at h
      cases h
    · rw [hrun] at h
      cases h
      have hspan : readSpan (fileLength m f) n.toNat off.toNat ≤ maxfilesize - off.toNat := by
        simp only [readSpan]
        omega
      have hmax : maxfilesize = 4235264 := rfl
      have hr : copyReturn (readCount m f n off)
          (loopResult (off.toNat + readSpan (fileLength m f) n.toNat off.toNat)
            (off + readCount m f n off).toNat) ≤
          readSpan (fileLength m f) n.toNat off.toNat := by
        rw [loopResult]
        split
        · rw [copyReturn, toInt_eq (by omega)]
          omega
        · simp only [copyReturn, eInval]
          omega
      refine ⟨hr, fun x hx he => hto.outside x (Or.inr hx) (Or.inr he), fun j hj => ?_⟩
      have hlt' := Int.lt_of_lt_of_le hj hr
      exact hto.copied j (by omega)

/-! ## The requests -/

theorem serveCopy_ok {copy : Mem → Nat → Nat → BitVec 32 → BitVec 32 → Option (Mem × Nat × Int)}
    {ipc : Nat} (ho : openfileLookup s (reqFileid m ipc) = .ok o)
    (h : serveCopy copy s m ipc buf = some (m', e, r)) :
    ∃ m1, copy m o.file buf (reqN m ipc) (fdOffset m o) = some (m1, e, r) ∧
      m' = if r < 0 then m1
        else m1.write32 (o.fd + 4) (fdOffset m1 o + BitVec.ofInt 32 r) := by
  rw [serveCopy, ho] at h
  obtain ⟨⟨m1, e1, r1⟩, hcopy, h⟩ := Option.map_eq_some_iff.mp h
  simp only at h
  split at h
  · rename_i hneg
    cases h
    exact ⟨_, hcopy, (if_pos hneg).symm⟩
  · rename_i hneg
    cases h
    exact ⟨m1, hcopy, (if_neg hneg).symm⟩

/-- A read request stays in the page when the request, the file or the largest file ends there. -/
theorem serveRead_stays_iff (hw : Wf m) (ho : openfileLookup s (reqFileid m fsreq) = .ok o)
    (hf : FileAt m o.file) (hoff : (fdOffset m o).toNat < 2147483648)
    (h : serveRead s m fsreq = some (m', e, r)) :
    ReadStays m o (reqN m fsreq) m' e r ↔
      readSpan (fileLength m o.file) (reqN m fsreq).toNat (fdOffset m o).toNat ≤ 4096 := by
  obtain ⟨m1, hread, hm'⟩ := serveCopy_ok ho h
  have hend := fileRead_end hoff hread
  have hfd := openfileLookup_fd ho
  have hpage : fsreq + 4096 = diskmap := rfl
  constructor
  · intro hstay
    have := hstay.in_page
    omega
  · intro hspan
    obtain ⟨hr, hout, hbytes⟩ := fileRead_beside hw hf hoff (Or.inl (by omega)) hread
    have hle : readSpan (fileLength m o.file) (reqN m fsreq).toNat (fdOffset m o).toNat ≤
        (reqN m fsreq).toNat := Nat.min_le_left _ _
    have hoffset : fdOffset m1 o = fdOffset m o :=
      Mem.read32_congr fun x hx _ => hout x (by omega) (by omega)
    refine ⟨by omega, by omega, ?_, fun j hj => ?_⟩
    · rw [hm']
      split
      · rw [hoffset, show max r 0 = 0 by omega]
        simp
      · rw [fdOffset, Mem.read32_write32_self, hoffset, show max r 0 = r by omega]
    · rw [hm', if_neg (by omega), Mem.write32_of_disjoint _ _ (by omega), hbytes j hj]

/-- A write request stays in the page when the request or the largest file ends there, or when
the end of the range wraps around, so that nothing is written. -/
theorem serveWrite_stays_iff (ho : openfileLookup s (reqFileid m fsreq) = .ok o)
    (hoff : (fdOffset m o).toNat < 2147483648) (h : serveWrite s m fsreq = some (m', e, r)) :
    WriteStays e ↔ 4294967296 ≤ (fdOffset m o).toNat + (reqN m fsreq).toNat ∨
      min (reqN m fsreq).toNat (maxfilesize - (fdOffset m o).toNat) ≤ 4088 := by
  obtain ⟨m1, hwrite, _⟩ := serveCopy_ok ho h
  have hend := fileWrite_end hoff hwrite
  have hn := (reqN m fsreq).isLt
  rw [WriteStays]
  by_cases hwrap : 4294967296 ≤ (fdOffset m o).toNat + (reqN m fsreq).toNat
  · have hlow : (fdOffset m o + reqN m fsreq).toNat ≤ (fdOffset m o).toNat := by
      rw [BitVec.toNat_add]
      omega
    rw [stopAt_of_not_lt fun hc => Nat.not_lt.mpr hlow hc.1, Nat.sub_self] at hend
    exact iff_of_true (by omega) (Or.inl hwrap)
  · have hsum : (fdOffset m o + reqN m fsreq).toNat = (fdOffset m o).toNat + (reqN m fsreq).toNat := by
      rw [BitVec.toNat_add]
      exact Nat.mod_eq_of_lt (Nat.not_le.mp hwrap)
    rw [hsum, stopAt_add, Nat.add_sub_cancel_left] at hend
    rw [or_iff_right hwrap]
    generalize min (reqN m fsreq).toNat (maxfilesize - (fdOffset m o).toNat) = count at hend ⊢
    omega

end

/-- For every open file, seek position and request: a read or write that returns stays inside
the request page exactly as long as it has at most a page, or what is left of it, to copy. -/
theorem serve_in_page_iff {s : Server} {m : Mem} {o : OpenFile} (hw : Wf m)
    (ho : openfileLookup s (reqFileid m fsreq) = .ok o) (hf : FileAt m o.file)
    (hoff : 0 ≤ (fdOffset m o).toInt) :
    (∀ m' e r, serveRead s m fsreq = some (m', e, r) →
      (ReadStays m o (reqN m fsreq) m' e r ↔
        readSpan (fileLength m o.file) (reqN m fsreq).toNat (fdOffset m o).toNat ≤ 4096)) ∧
    ∀ m' e r, serveWrite s m fsreq = some (m', e, r) →
      (WriteStays e ↔ 4294967296 ≤ (fdOffset m o).toNat + (reqN m fsreq).toNat ∨
        min (reqN m fsreq).toNat (maxfilesize - (fdOffset m o).toNat) ≤ 4088) := by
  have hoff' : (fdOffset m o).toNat < 2147483648 := by
    have hint := BitVec.toInt_eq_toNat_cond (fdOffset m o)
    split at hint
    · omega
    · omega
  exact ⟨fun m' e r h => serveRead_stays_iff hw ho hf hoff' h,
    fun m' e r h => serveWrite_stays_iff ho hoff' h⟩

/-! ## A request on the small disk -/

/-- The small file is open in the first slot, and a client has its `Fd` page. -/
def smallServer : Server where
  opentab i := ⟨if i = 0 then 1024#32 else BitVec.ofNat 32 i, smallFile, fileva + 4096 * i⟩
  pageref a := if a = fileva then 2 else 0
  fd_eq _ _ := rfl

/-- A request of `n` bytes from the start of the small file. -/
def smallReq (n : BitVec 32) : Mem :=
  Mem.write32 (Mem.write32 smallDisk fsreq 1024#32) (fsreq + 4) n

theorem smallReq_sameDisk (n : BitVec 32) : SameDisk smallDisk (smallReq n) := by
  intro x h1 _
  have hpage : fsreq + 4096 = diskmap := rfl
  rw [smallReq, Mem.write32_of_disjoint _ _ (by omega), Mem.write32_of_disjoint _ _ (by omega)]

theorem smallReq_wf (n : BitVec 32) : Wf (smallReq n) ∧ FileAt (smallReq n) smallFile := by
  have hun := (smallReq_sameDisk n).unmoved smallDisk_wf
  exact ⟨hun.wf smallDisk_wf, hun.fileAt_iff.mpr smallFile_fileAt⟩

/-- A read and a write of 100 bytes. -/
theorem serve_in_page_small : ∃ m' e r, serveRead smallServer (smallReq 100#32) fsreq =
      some (m', e, r) ∧ ReadStays (smallReq 100#32) (smallServer.opentab 0) 100#32 m' e r ∧
    ∃ m' e r, serveWrite smallServer (smallReq 100#32) fsreq = some (m', e, r) ∧ WriteStays e := by
  have hread : (serveRead smallServer (smallReq 100#32) fsreq).isSome = true := by decide +kernel
  have hwrite : (serveWrite smallServer (smallReq 100#32) fsreq).isSome = true := by decide +kernel
  obtain ⟨⟨m', e, r⟩, hread⟩ := Option.isSome_iff_exists.mp hread
  obtain ⟨⟨m2, e2, r2⟩, hwrite⟩ := Option.isSome_iff_exists.mp hwrite
  obtain ⟨hw, hf⟩ := smallReq_wf 100#32
  have ho : openfileLookup smallServer (reqFileid (smallReq 100#32) fsreq) =
      .ok (smallServer.opentab 0) := by
    rw [openfileLookup, if_neg (by decide +kernel)]
    congr
  have hn : reqN (smallReq 100#32) fsreq = 100#32 := by decide +kernel
  have hboth := serve_in_page_iff hw ho hf (by decide +kernel)
  rw [hn] at hboth
  exact ⟨m', e, r, hread, (hboth.1 m' e r hread).mpr (by decide +kernel), m2, e2, r2, hwrite,
    (hboth.2 m2 e2 r2 hwrite).mpr (by decide +kernel)⟩

/-- A read of 5000 bytes goes on into block 0 of the disk, a write of 5000 bytes takes its bytes
from there. -/
theorem serve_past_page : Wf (smallReq 5000#32) ∧ FileAt (smallReq 5000#32) smallFile ∧
    (∃ res, serveRead smallServer (smallReq 5000#32) fsreq = some res ∧ res.2.2 = 5000 ∧
      res.1 (blockAddr 0) ≠ smallReq 5000#32 (blockAddr 0) ∧
      ¬ ReadStays (smallReq 5000#32) (smallServer.opentab 0) 5000#32 res.1 res.2.1 res.2.2) ∧
    ∃ res, serveWrite smallServer (smallReq 5000#32) fsreq = some res ∧ ¬ WriteStays res.2.1 := by
  have hread : (serveRead smallServer (smallReq 5000#32) fsreq).any (fun res => res.2.2 = 5000 ∧
      res.1 (blockAddr 0) ≠ smallReq 5000#32 (blockAddr 0)) = true := by decide +kernel
  have hwrite : (serveWrite smallServer (smallReq 5000#32) fsreq).any (fun res =>
      fsreq + 4096 < res.2.1) = true := by decide +kernel
  simp only [Option.any_eq_true, decide_eq_true_eq] at hread hwrite
  obtain ⟨res, hread, hr, hblock⟩ := hread
  obtain ⟨res', hwrite, he⟩ := hwrite
  obtain ⟨hw, hf⟩ := smallReq_wf 5000#32
  refine ⟨hw, hf, ⟨res, hread, hr, hblock, fun hstay => ?_⟩, res', hwrite, fun hstay => ?_⟩
  · have := hstay.le
    omega
  · rw [WriteStays] at hstay
    omega

end Jos.Fs
