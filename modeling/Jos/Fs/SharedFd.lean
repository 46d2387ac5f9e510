import Jos.Fs.Requests
import Jos.Lib.Takes

/-!
# Sharing one open file

Several environments share an `Fd` page and read from it. A request and its reply travel through a
page of the client, which the server has at `fsreq` from the moment it receives the request; the
seek position is in the `Fd` page. The server handles one request at a time, so whatever the order
of the steps, the clients together get the bytes of the file from the first seek position on.

`file_read` compares signed numbers first and unsigned numbers in its loop. At a negative position
it counts bytes that it does not copy.

Main results:
* `ReadInv.run`: the invariant over any interleaving;
* `shared_reads_in_order`: the clients get the bytes in order, each once;
* `negative_position_read`: a client that gets bytes of its own request.
-/

namespace Jos.Fs

open Jos.Lib

/-! ## Clients and server -/

/-- The memory of the server with the page `p` of a client at `fsreq`. -/
def mapRequest (m p : Mem) : Mem := fun x =>
  if fsreq ≤ x ∧ x < fsreq + 4096 then p (x - fsreq) else m x

/-- The page at `fsreq`. -/
def requestPage (m : Mem) : Mem := fun j => m (fsreq + j)

/-- The `n` bytes at `a`. -/
def bytesAt (m : Mem) (a n : Nat) : List (BitVec 8) := (List.range n).map fun j => m (a + j)

/-- Where a client is in `fsipc`, with the number of bytes it has asked for. -/
inductive Phase
  | idle
  /-- in `ipc_send` -/
  | sending (n : BitVec 32)
  /-- The request has been received; in `ipc_recv`. -/
  | waiting (n : BitVec 32)

/-- Where the server is in the loop of `serve`. -/
inductive Serving (Client : Type)
  /-- in `ipc_recv` -/
  | recv
  | got (c : Client)
  /-- in `ipc_send` -/
  | reply (c : Client) (r : Int)

/-- The bytes that a client gets for a request of `n` bytes. -/
structure Chunk (Client : Type) where
  client : Client
  n : Nat
  bytes : List (BitVec 8)

structure Readers (Client : Type) where
  /-- The memory of the server. -/
  mem : Mem
  /-- `fsipcbuf` of each client -/
  page : Client → Mem
  phase : Client → Phase
  serving : Serving Client
  /-- The chunks in the order in which the server has handled the requests. -/
  served : List (Chunk Client)
  /-- The chunks in the order in which the clients have received them. -/
  received : List (Chunk Client)

/-- Nobody writes or truncates: the disk is well formed and has the file as before. -/
structure FileKept (f : Nat) (m m' : Mem) : Prop where
  wf : Wf m'
  file : FileAt m' f
  size : fSize m' f = fSize m f
  byte : ∀ i < maxfilesize, fileByte m' f i = fileByte m f i

/-- One step of a client or of the server. -/
inductive ReadStep {Client : Type} [DecidableEq Client] (o : OpenFile) :
    Readers Client → Readers Client → Prop
  /-- A client fills its page with a request of at most a page. -/
  | request {s : Readers Client} {c : Client} (p : Mem) (idle : s.phase c = .idle)
      (fileid : reqFileid p 0 = o.fileid) (le : (reqN p 0).toNat ≤ 4096) :
      ReadStep o s { s with
        page := Function.update s.page c p
        phase := Function.update s.phase c (.sending (reqN p 0)) }
  /-- `ipc_send` of the client succeeds. -/
  | receive {s : Readers Client} {c : Client} {n : BitVec 32} (sending : s.phase c = .sending n)
      (ready : s.serving = .recv) :
      ReadStep o s { s with
        mem := mapRequest s.mem (s.page c)
        phase := Function.update s.phase c (.waiting n)
        serving := .got c }
  /-- `serve_read`. The table of open files has `o` under its id. -/
  | serve {s : Readers Client} {c : Client} {t : Server} {m' : Mem} {e : Nat} {r : Int}
      (got : s.serving = .got c) (table : openfileLookup t o.fileid = .ok o)
      (run : serveRead t s.mem fsreq = some (m', e, r)) :
      ReadStep o s { s with
        mem := m'
        page := Function.update s.page c (requestPage m')
        serving := .reply c r
        served := if r < 0 then s.served
          else s.served ++ [⟨c, (reqN s.mem fsreq).toNat, bytesAt m' fsreq r.toNat⟩] }
  /-- `ipc_send` of the server succeeds, and the client takes the bytes from its page. -/
  | reply {s : Readers Client} {c : Client} {r : Int} {n : BitVec 32}
      (replying : s.serving = .reply c r) (waiting : s.phase c = .waiting n) :
      ReadStep o s { s with
        phase := Function.update s.phase c .idle
        serving := .recv
        received := if r < 0 then s.received
          else s.received ++ [⟨c, n.toNat, bytesAt (s.page c) 0 r.toNat⟩] }
  /-- The server handles other requests, and clients write other shared pages. -/
  | other {s : Readers Client} {m' : Mem} (ready : s.serving = .recv)
      (kept : FileKept o.file s.mem m') (offset : fdOffset m' o = fdOffset s.mem o) :
      ReadStep o s { s with mem := m' }

/-- Before the first request. -/
structure ReadersStart {Client : Type} (o : OpenFile) (s : Readers Client) : Prop where
  opened : ∃ t : Server, openfileLookup t o.fileid = .ok o
  wf : Wf s.mem
  file : FileAt s.mem o.file
  idle : ∀ c, s.phase c = .idle
  recv : s.serving = .recv
  served : s.served = []
  received : s.received = []

/-- The bytes of the file from the seek position on. -/
def fileFrom (m : Mem) (o : OpenFile) : List (BitVec 8) :=
  bytesAt (fileByte m o.file) (fdOffset m o).toNat (fileLength m o.file - (fdOffset m o).toNat)

/-- The clients get the bytes of the file from the seek position of `m0` on, piece by piece in the
order in which they are served, and each gets its own pieces. -/
structure ReadsInOrder {Client : Type} (m0 : Mem) (o : OpenFile) (s : Readers Client) : Prop where
  chunks : s.served.map (·.bytes) = takes (fileFrom m0 o) (s.served.map (·.n))
  whole : (s.served.map (·.bytes)).flatten = (fileFrom m0 o).take (s.served.map (·.n)).sum
  answered : ∀ c r, s.serving = .reply c r → 0 ≤ r
  received : s.served = s.received ∨
    ∃ x r, s.served = s.received ++ [x] ∧ s.serving = .reply x.client r

/-- The seek position can be read at: it is at the end of the file or after it, or it is a position
of a file that is not too large. -/
def Readable (m : Mem) (f : Nat) (off : BitVec 32) : Prop :=
  (fSize m f).sle off = true ∨ (off.toNat < 2147483648 ∧ (fSize m f).toNat ≤ maxfilesize)

section

variable {m m' : Mem} {f buf e : Nat} {n off : BitVec 32} {r : Int} {o : OpenFile}

/-! ## Bytes -/

theorem length_bytesAt (m : Mem) (a n : Nat) : (bytesAt m a n).length = n := by
  rw [bytesAt, List.length_map, List.length_range]

theorem bytesAt_congr {a b : Nat} {k : Nat} (h : ∀ j < k, m' (b + j) = m (a + j)) :
    bytesAt m' b k = bytesAt m a k := by
  unfold bytesAt
  exact List.map_congr_left fun j hj => h j (List.mem_range.mp hj)

theorem bytesAt_take_drop (m : Mem) (a l k n : Nat) :
    ((bytesAt m a l).drop k).take n = bytesAt m (a + k) (min n (l - k)) := by
  refine List.ext_getElem ?_ fun i h1 h2 => ?_
  · rw [length_take_drop, length_bytesAt, length_bytesAt]
  · simp only [bytesAt, List.getElem_take, List.getElem_drop, List.getElem_map, List.getElem_range,
      Nat.add_assoc]

/-! ## One read -/

theorem Readable.end_le (h : (fSize m f).sle off = true) : fileLength m f ≤ off.toNat := by
  rw [BitVec.sle_eq_decide, decide_eq_true_eq] at h
  have hint := BitVec.toInt_eq_toNat_cond off
  have hlt := off.isLt
  rw [fileLength]
  split at hint
  · omega
  · omega

/-- The loop of `file_read` reads the bytes and keeps the file. -/
theorem readLoop_file {buf' stop : Nat} {pos ending : BitVec 32} {res : Except Int Unit}
    (hw : Wf m) (hf : FileAt m f) (hpos : pos.toNat < 2147483648)
    (hstop : stopAt pos.toNat ending.toNat = stop) (hbuf : Beside buf (stop - pos.toNat))
    (h : readLoop f ending copyFuel m buf pos = some (m', buf', res)) :
    ReadTo m f buf pos.toNat stop (buf + (stop - pos.toNat)) m' ∧ fSize m' f = fSize m f ∧
      res = loopResult stop ending.toNat := by
  have hround : ∀ {p b : Nat} {m1 m2 : Mem} {n : Nat},
      (ReadTo m f buf pos.toNat p b m1 ∧ fSize m1 f = fSize m f) → GotBlock m1 f (p / 4096) m2 → 0 < n →
      p % 4096 + n ≤ 4096 → p + n ≤ ending.toNat → p + n ≤ maxfilesize →
      Unmoved m2 (m2.move b (byteAddr m2 f p) n) ∧
        ReadTo m f buf pos.toNat (p + n) (b + n) (m2.move b (byteAddr m2 f p) n) ∧
        fSize (m2.move b (byteAddr m2 f p) n) f = fSize m f := by
    intro p b m1 m2 n hQ hgot hn0 hn hend hmax
    have hs := hQ.1.le
    have hb := hQ.1.buf_eq
    have hbeside : Beside buf (p + n - pos.toNat) := by
      simp only [Beside, stopAt] at hbuf hstop ⊢
      omega
    obtain ⟨hun, hto⟩ := hQ.1.round hgot hn hmax hbeside
    have hw2 := hgot.grows.wf hQ.1.wf
    have hf2 := hgot.grows.fileAt hQ.1.wf hQ.1.file
    have hsd : SameDisk m2 (m2.move b (byteAddr m2 f p) n) := sameDisk_move (by
      simp only [Beside] at hbeside ⊢
      omega)
    refine ⟨hun, hto, ?_⟩
    rw [fSize, hsd.read32_file hw2 hf2 (by decide), ← fSize, hgot.grows.size_eq hQ.1.wf hQ.1.file, hQ.2]
  have hinit : ReadTo m f buf pos.toNat pos.toNat buf m ∧ fSize m f = fSize m f :=
    ⟨⟨hw, hf, Nat.le_refl _, by omega, fun _ _ => rfl, by omega, fun _ _ _ => rfl,
      fun _ => .refl hw⟩, rfl⟩
  have hloop := copyLoop_rule (Q := fun p b m1 => ReadTo m f buf pos.toNat p b m1 ∧
    fSize m1 f = fSize m f) (fun h => ⟨h.1.wf, h.1.file⟩) hround hpos hstop (by decide)
    (copyFuel_enough hstop) hinit
  rcases hloop with ⟨_, _, hnone⟩ | ⟨m1, hrun, hto, hsize⟩
  · rw [readLoop, hnone] at h
    cases h
  · rw [readLoop, hrun] at h
    cases h
    exact ⟨hto, hsize, rfl⟩

/-- What `file_read` returns at a position that can be read at, and what it leaves. -/
structure ReadChunk (m : Mem) (f buf n off : Nat) (m' : Mem) (r : Int) : Prop where
  value : r = (min n (fileLength m f - off) : Nat)
  bytes : ∀ j < min n (fileLength m f - off), m' (buf + j) = fileByte m f (off + j)
  kept : FileKept f m m'
  outside : ∀ x, diskmap + disksize ≤ x → m' x = m x

theorem fileRead_chunk (hw : Wf m) (hf : FileAt m f) (hoff : Readable m f off)
    (hbuf : buf + n.toNat ≤ diskmap) (h : fileRead m f buf n off = some (m', e, r)) :
    ReadChunk m f buf n.toNat off.toNat m' r := by
  by_cases hend : (fSize m f).sle off = true
  · rw [fileRead, if_pos hend] at h
    cases h
    have hle := Readable.end_le hend
    exact ⟨by omega, by omega, ⟨hw, hf, rfl, fun _ _ => rfl⟩, fun _ _ => rfl⟩
  · obtain ⟨hlt, hmax⟩ := hoff.resolve_left hend
    rw [fileRead_eq hlt] at h
    split at h
    · cases h
      exact ⟨by omega, by omega, ⟨hw, hf, rfl, fun _ _ => rfl⟩, fun _ _ => rfl⟩
    · rename_i hgt
      obtain ⟨hsize, _⟩ := fileLength_eq (show off.toNat < fileLength m f by omega)
      obtain ⟨hcount, hsum, hstop⟩ := readCount_span (n := n) (m := m) (f := f) off (by omega)
      have hspan : readSpan (fileLength m f) n.toNat off.toNat =
          min n.toNat (fileLength m f - off.toNat) := by
        simp only [readSpan]
        omega
      rw [hspan] at hstop
      obtain ⟨⟨m1, e1, res⟩, hloop, h⟩ := Option.map_eq_some_iff.mp h
      cases h
      obtain ⟨hto, hsz, rfl⟩ := readLoop_file hw hf hlt hstop (Or.inl (by omega)) hloop
      refine ⟨?_, fun j hj => hto.copied j (by omega), ⟨hto.wf, hto.file, hsz, hto.same⟩,
        fun x hx => hto.outside x (Or.inr hx) (Or.inr ?_)⟩
      · have hm : maxfilesize = 4235264 := rfl
        rw [loopResult, if_pos (by omega), copyReturn, toInt_eq (by omega), hcount]
      · have hdisk : diskmap ≤ diskmap + disksize := Nat.le_add_right _ _
        omega

/-! ## The file and the pages -/

theorem FileKept.refl (hw : Wf m) (hf : FileAt m f) : FileKept f m m :=
  ⟨hw, hf, rfl, fun _ _ => rfl⟩

theorem FileKept.trans {m1 : Mem} (h : FileKept f m m1) (h' : FileKept f m1 m') : FileKept f m m' :=
  ⟨h'.wf, h'.file, h'.size.trans h.size, fun i hi => (h'.byte i hi).trans (h.byte i hi)⟩

theorem SameDisk.fileKept (h : SameDisk m m') (hw : Wf m) (hf : FileAt m f) : FileKept f m m' :=
  ⟨(h.unmoved hw).wf hw, (h.unmoved hw).fileAt_iff.mpr hf, h.read32_file hw hf (by decide),
    fun _ hi => h.fileByte_eq hw hf hi⟩

theorem FileKept.length (h : FileKept f m m') : fileLength m' f = fileLength m f := by
  rw [fileLength, h.size, fileLength]

theorem Readable.kept (hoff : Readable m f off) (h : FileKept f m m') : Readable m' f off := by
  unfold Readable
  rw [h.size]
  exact hoff

theorem sameDisk_mapRequest (m p : Mem) : SameDisk m (mapRequest m p) := by
  intro x hx _
  have hpage : fsreq + 4096 = diskmap := rfl
  rw [mapRequest, if_neg (by omega)]

theorem mapRequest_fd (p : Mem) (hfd : diskmap + disksize ≤ o.fd) :
    fdOffset (mapRequest m p) o = fdOffset m o := by
  have hpage : fsreq + 4096 = diskmap := rfl
  refine Mem.read32_congr fun x hx _ => ?_
  rw [mapRequest, if_neg (by omega)]

theorem mapRequest_read (m p : Mem) {a : Nat} (ha : a + 4 ≤ 4096) :
    (mapRequest m p).read32 (fsreq + a) = p.read32 a := by
  refine Mem.read32_shift fun c hc => ?_
  rw [mapRequest, if_pos (by omega), Nat.add_assoc, Nat.add_sub_cancel_left]

/-! ## `serve_read` -/

/-- What `serve_read` leaves: the bytes in the page, and the seek position behind them. -/
structure ReadServed (m : Mem) (o : OpenFile) (n k : Nat) (m' : Mem) (r : Int) : Prop where
  count : k = min n (fileLength m o.file - (fdOffset m o).toNat)
  value : r = k
  bytes : bytesAt m' fsreq k = bytesAt (fileByte m o.file) (fdOffset m o).toNat k
  kept : FileKept o.file m m'
  offset : (fdOffset m' o).toNat = (fdOffset m o).toNat + k
  readable : Readable m' o.file (fdOffset m' o)

theorem serveRead_served {t : Server} (hw : Wf m) (hf : FileAt m o.file)
    (hoff : Readable m o.file (fdOffset m o)) (ho : openfileLookup t (reqFileid m fsreq) = .ok o)
    (hn : (reqN m fsreq).toNat ≤ 4096) (h : serveRead t m fsreq = some (m', e, r)) :
    ReadServed m o (reqN m fsreq).toNat
      (min (reqN m fsreq).toNat (fileLength m o.file - (fdOffset m o).toNat)) m' r := by
  obtain ⟨m1, hread, hm'⟩ := serveCopy_ok ho h
  have hfd := openfileLookup_fd ho
  have hpage : fsreq + 4096 = diskmap := rfl
  obtain ⟨hvalue, hbytes, hkept, hout⟩ := fileRead_chunk hw hf hoff (by omega) hread
  generalize hk : min (reqN m fsreq).toNat (fileLength m o.file - (fdOffset m o).toNat) = k at *
  rw [if_neg (by omega)] at hm'
  have hsame : SameDisk m1 m' := by
    intro x _ hx
    rw [hm', Mem.write32_of_disjoint _ _ (by omega)]
  have hkept' := hkept.trans (hsame.fileKept hkept.wf hkept.file)
  have hoffset : fdOffset m1 o = fdOffset m o :=
    Mem.read32_congr fun x hx _ => hout x (by omega)
  have hnew : fdOffset m' o = fdOffset m o + BitVec.ofNat 32 k := by
    rw [hm', fdOffset, Mem.read32_write32_self, hoffset, hvalue]
    rfl
  -- The seek position moves only inside the file.
  have hin : k = 0 ∨ (fdOffset m o).toNat < 2147483648 ∧ (fSize m o.file).toNat ≤ maxfilesize ∧
      (fdOffset m o).toNat + k ≤ fileLength m o.file := by
    rcases hoff with hend | hlt
    · have := Readable.end_le hend
      exact Or.inl (by omega)
    · by_cases hz : k = 0
      · exact Or.inl hz
      · exact Or.inr ⟨hlt.1, hlt.2, by omega⟩
  have hmax : maxfilesize = 4235264 := rfl
  have hlen : fileLength m o.file ≤ (fSize m o.file).toNat := by
    have hint := BitVec.toInt_eq_toNat_cond (fSize m o.file)
    rw [fileLength]
    split at hint
    · omega
    · omega
  have hnat : (fdOffset m' o).toNat = (fdOffset m o).toNat + k := by
    rw [hnew, BitVec.toNat_add, BitVec.toNat_ofNat]
    omega
  refine ⟨hk.symm, hvalue, bytesAt_congr fun j hj => ?_, hkept', hnat, ?_⟩
  · rw [← hbytes j hj, hm', Mem.write32_of_disjoint _ _ (by omega)]
  · rcases hin with hz | ⟨h1, h2, h3⟩
    · rw [hnew, hz, BitVec.add_zero]
      exact hoff.kept hkept'
    · refine Or.inr ⟨by omega, ?_⟩
      rw [hkept'.size]
      exact h2

end

/-! ## All orders of the steps -/

section

variable {Client : Type} {m0 : Mem} {o : OpenFile} {s s' : Readers Client}

/-- What holds in every state: the pieces served so far end at the seek position, the pages of the
clients hold their requests, and at most one piece has not been received. -/
structure ReadInv (m0 : Mem) (o : OpenFile) (s : Readers Client) : Prop where
  kept : FileKept o.file m0 s.mem
  readable : Readable s.mem o.file (fdOffset s.mem o)
  offset : (fdOffset s.mem o).toNat =
    (fdOffset m0 o).toNat + min (s.served.map (·.n)).sum (fileFrom m0 o).length
  chunks : s.served.map (·.bytes) = takes (fileFrom m0 o) (s.served.map (·.n))
  sending : ∀ c n, s.phase c = .sending n →
    reqFileid (s.page c) 0 = o.fileid ∧ reqN (s.page c) 0 = n ∧ n.toNat ≤ 4096
  recv : s.serving = .recv → s.served = s.received
  got : ∀ c, s.serving = .got c → s.served = s.received ∧ ∃ n, s.phase c = .waiting n ∧
    reqFileid s.mem fsreq = o.fileid ∧ reqN s.mem fsreq = n ∧ n.toNat ≤ 4096
  reply : ∀ c r, s.serving = .reply c r → 0 ≤ r ∧ ∃ n, s.phase c = .waiting n ∧
    s.served = s.received ++ [⟨c, n.toNat, bytesAt (s.page c) 0 r.toNat⟩]

theorem length_fileFrom (m : Mem) (o : OpenFile) :
    (fileFrom m o).length = fileLength m o.file - (fdOffset m o).toNat := length_bytesAt ..

theorem ReadInv.start (h : ReadersStart o s) (hoff : Readable s.mem o.file (fdOffset s.mem o)) :
    ReadInv s.mem o s where
  kept := .refl h.wf h.file
  readable := hoff
  offset := by simp [h.served]
  chunks := by simp [h.served, takes]
  sending c n hc := by
    rw [h.idle c] at hc
    cases hc
  recv _ := by rw [h.served, h.received]
  got c hc := by
    rw [h.recv] at hc
    cases hc
  reply c r hc := by
    rw [h.recv] at hc
    cases hc

/-- The next piece. -/
theorem ReadInv.chunk {m' : Mem} {n k : Nat} {r : Int} (h : ReadInv m0 o s)
    (hread : ReadServed s.mem o n k m' r) :
    bytesAt m' fsreq k = ((fileFrom m0 o).drop (s.served.map (·.n)).sum).take n ∧
      (fdOffset m' o).toNat =
        (fdOffset m0 o).toNat + min ((s.served.map (·.n)).sum + n) (fileFrom m0 o).length := by
  have hoff := h.offset
  have hk := hread.count
  rw [h.kept.length] at hk
  rw [length_fileFrom] at hoff ⊢
  refine ⟨?_, by rw [hread.offset]; omega⟩
  rw [← drop_min_length, length_fileFrom, fileFrom, bytesAt_take_drop, hread.bytes, ← hoff,
    show min n (fileLength m0 o.file - (fdOffset m0 o).toNat -
      min (s.served.map (·.n)).sum (fileLength m0 o.file - (fdOffset m0 o).toNat)) = k by omega]
  refine bytesAt_congr fun j hj => h.kept.byte _ ?_
  -- A position before the end is one of a file that is not too large.
  rcases h.readable with hend | ⟨_, hmax⟩
  · have := Readable.end_le hend
    rw [h.kept.length] at this
    omega
  · have hlen := (fileLength_eq (show (fdOffset s.mem o).toNat < fileLength s.mem o.file by
      rw [h.kept.length]
      omega)).1
    rw [h.kept.length] at hlen
    omega

variable [DecidableEq Client]

theorem ReadInv.step (ho : diskmap + disksize ≤ o.fd) (h : ReadInv m0 o s) (hstep : ReadStep o s s') :
    ReadInv m0 o s' := by
  cases hstep with
  | @request c p idle fileid le =>
      refine ⟨h.kept, h.readable, h.offset, h.chunks, fun c' n hc' => ?_, h.recv, fun c' hc' => ?_,
        fun c' r hc' => ?_⟩
      · by_cases hcc : c' = c
        · subst hcc
          simp only [Function.update_self, Phase.sending.injEq] at hc'
          simp only [Function.update_self]
          exact ⟨fileid, hc', hc' ▸ le⟩
        · simp only [Function.update_of_ne hcc] at hc' ⊢
          exact h.sending c' n hc'
      · obtain ⟨heq, n, hn, hrest⟩ := h.got c' hc'
        have hcc : c' ≠ c := by
          rintro rfl
          rw [idle] at hn
          cases hn
        exact ⟨heq, n, by simpa only [Function.update_of_ne hcc] using hn, hrest⟩
      · obtain ⟨hr, n, hn, hserved⟩ := h.reply c' r hc'
        have hcc : c' ≠ c := by
          rintro rfl
          rw [idle] at hn
          cases hn
        refine ⟨hr, n, by simpa only [Function.update_of_ne hcc] using hn, ?_⟩
        simpa only [Function.update_of_ne hcc] using hserved
  | @receive c n sending ready =>
      obtain ⟨hid, hn, hle⟩ := h.sending c n sending
      have hsame := sameDisk_mapRequest s.mem (s.page c)
      have hkept := hsame.fileKept h.kept.wf h.kept.file
      refine ⟨h.kept.trans hkept, ?_, ?_, h.chunks, fun c' n' hc' => ?_, fun hc' => ?_,
        fun c' hc' => ?_, fun c' r hc' => ?_⟩
      · rw [mapRequest_fd _ ho]
        exact h.readable.kept hkept
      · rw [mapRequest_fd _ ho]
        exact h.offset
      · by_cases hcc : c' = c
        · simp [hcc] at hc'
        · simp only [Function.update_of_ne hcc] at hc'
          exact h.sending c' n' hc'
      · cases hc'
      · cases hc'
        refine ⟨h.recv ready, n, Function.update_self .., ?_, ?_, hle⟩
        · rw [← hid]
          exact mapRequest_read s.mem (s.page c) (a := 0) (by decide)
        · rw [← hn]
          exact mapRequest_read s.mem (s.page c) (a := 4) (by decide)
      · cases hc'
  | @serve c t m' e r got table run =>
      obtain ⟨heq, n, hphase, hid, hn, hle⟩ := h.got c got
      have hread := serveRead_served h.kept.wf h.kept.file h.readable (hid ▸ table) (hn ▸ hle) run
      rw [hn] at hread
      have hr : ¬ r < 0 := by
        have := hread.value
        omega
      have hrn : r.toNat = min n.toNat (fileLength s.mem o.file - (fdOffset s.mem o).toNat) := by
        have := hread.value
        omega
      obtain ⟨hbytes, hoffset⟩ := h.chunk hread
      refine ⟨h.kept.trans hread.kept, hread.readable, ?_, ?_, fun c' n' hc' => ?_, fun hc' => ?_,
        fun c' hc' => ?_, fun c' r' hc' => ?_⟩
      · simp only [if_neg hr, List.map_append, List.sum_append, List.map_cons, List.map_nil, hn,
          List.sum_singleton]
        exact hoffset
      · simp only [if_neg hr, List.map_append, List.map_cons, List.map_nil, hn]
        rw [takes_concat, h.chunks, hrn, hbytes]
      · have hcc : c' ≠ c := by
          rintro rfl
          rw [hphase] at hc'
          cases hc'
        simp only [Function.update_of_ne hcc]
        exact h.sending c' n' hc'
      · cases hc'
      · cases hc'
      · cases hc'
        refine ⟨by omega, n, hphase, ?_⟩
        simp only [if_neg hr, hn, heq, Function.update_self]
        congr 3
        exact bytesAt_congr fun j _ => by simp [requestPage]
  | @reply c r n replying waiting =>
      obtain ⟨hr, n', hn', hserved⟩ := h.reply c r replying
      cases waiting.symm.trans hn'
      refine ⟨h.kept, h.readable, h.offset, h.chunks, fun c' n' hc' => ?_, fun _ => ?_,
        fun c' hc' => ?_, fun c' r' hc' => ?_⟩
      · by_cases hcc : c' = c
        · simp [hcc] at hc'
        · simp only [Function.update_of_ne hcc] at hc'
          exact h.sending c' n' hc'
      · rw [if_neg (by omega)]
        exact hserved
      · cases hc'
      · cases hc'
  | other ready kept offset =>
      refine ⟨h.kept.trans kept, ?_, ?_, h.chunks, h.sending, h.recv, fun c hc => ?_, h.reply⟩
      · rw [offset]
        exact h.readable.kept kept
      · rw [offset]
        exact h.offset
      · rw [ready] at hc
        cases hc

theorem ReadInv.run (ho : diskmap + disksize ≤ o.fd) (h : ReadInv m0 o s)
    (hrun : Relation.ReflTransGen (ReadStep o) s s') : ReadInv m0 o s' := by
  induction hrun with
  | refl => exact h
  | tail _ hstep ih => exact ih.step ho hstep

/-- Whatever the order of the steps, the clients get the bytes of the file from the first seek
position on, each byte once, if that position is not negative and the file not too large. -/
theorem shared_reads_in_order (h : ReadersStart o s)
    (hoff : Readable s.mem o.file (fdOffset s.mem o))
    (hrun : Relation.ReflTransGen (ReadStep o) s s') : ReadsInOrder s.mem o s' := by
  obtain ⟨t, ht⟩ := h.opened
  have hinv := (ReadInv.start h hoff).run (openfileLookup_fd ht) hrun
  refine ⟨hinv.chunks, ?_, fun c r hc => (hinv.reply c r hc).1, ?_⟩
  · rw [hinv.chunks, flatten_takes]
  cases hserving : s'.serving with
  | recv => exact Or.inl (hinv.recv hserving)
  | got c => exact Or.inl (hinv.got c hserving).1
  | reply c r =>
      obtain ⟨_, n, _, hserved⟩ := hinv.reply c r hserving
      exact Or.inr ⟨_, r, hserved, rfl⟩

/-- One request, from the client's page to the reply. -/
theorem oneRead {c : Client} {n : BitVec 32} {p m' : Mem} {t : Server} {e : Nat} {r : Int}
    (h : ReadersStart o s) (hid : reqFileid p 0 = o.fileid) (hn : reqN p 0 = n)
    (hle : n.toNat ≤ 4096) (ht : openfileLookup t o.fileid = .ok o)
    (hrun : serveRead t (mapRequest s.mem p) fsreq = some (m', e, r)) (hr : 0 ≤ r) :
    ∃ s', Relation.ReflTransGen (ReadStep o) s s' ∧
      s'.served = [⟨c, n.toNat, bytesAt m' fsreq r.toNat⟩] := by
  refine ⟨_, .tail (.tail (.single (.request (c := c) p (h.idle c) hid (hn ▸ hle)))
    (.receive (c := c) (n := n) ?_ h.recv)) (.serve (c := c) rfl ht
      (show serveRead t _ fsreq = some (m', e, r) by simpa using hrun)), ?_⟩
  · simp [hn]
  · simp only [if_neg (show ¬ r < 0 by omega), h.served, Function.update_self, List.nil_append]
    rw [← hn]
    congr 2

end

/-! ## The small disk -/

/-- The small file is open with the seek position `off`; two clients share the `Fd` page. -/
def smallReaders (off : BitVec 32) : Readers Bool where
  mem := Mem.write32 smallDisk (fileva + 4) off
  page _ _ := 0
  phase _ := .idle
  serving := .recv
  served := []
  received := []

/-- A request for `n` bytes of the small file. -/
def smallPage (n : BitVec 32) : Mem := Mem.write32 (Mem.write32 (fun _ => 0) 0 1024#32) 4 n

theorem smallReaders_start (off : BitVec 32) :
    ReadersStart (smallServer.opentab 0) (smallReaders off) := by
  have hsame : SameDisk smallDisk (smallReaders off).mem := by
    intro x _ hx
    have hfd : diskmap + disksize = fileva := rfl
    exact Mem.write32_of_disjoint _ _ (by omega)
  have hun := hsame.unmoved smallDisk_wf
  refine ⟨⟨smallServer, ?_⟩, hun.wf smallDisk_wf, hun.fileAt_iff.mpr smallFile_fileAt, fun _ => rfl,
    rfl, rfl, rfl⟩
  rw [openfileLookup, if_neg (by decide +kernel)]
  rfl

theorem smallPage_reads (n : BitVec 32) :
    reqFileid (smallPage n) 0 = (smallServer.opentab 0).fileid ∧ reqN (smallPage n) 0 = n := by
  refine ⟨?_, Mem.read32_write32_self ..⟩
  rw [reqFileid, smallPage, Mem.read32_write32_of_disjoint _ _ (by decide), Mem.read32_write32_self]
  rfl

/-- What one client gets for a request of `n` bytes at `off`. -/
theorem smallReaders_read {off n : BitVec 32} {l : List (BitVec 8)} (hn : n.toNat ≤ 4096)
    (h : (serveRead smallServer (mapRequest (smallReaders off).mem (smallPage n)) fsreq).map
      (fun x => (bytesAt x.1 fsreq n.toNat, x.2.2)) = some (l, (n.toNat : Int))) :
    ∃ s, Relation.ReflTransGen (ReadStep (smallServer.opentab 0)) (smallReaders off) s ∧
      s.served = [⟨true, n.toNat, l⟩] := by
  obtain ⟨⟨m', e, r⟩, hrun, heq⟩ := Option.map_eq_some_iff.mp h
  simp only [Prod.mk.injEq] at heq
  obtain ⟨rfl, rfl⟩ := heq
  have hstart := smallReaders_start off
  have hopen : openfileLookup smallServer (smallServer.opentab 0).fileid =
      .ok (smallServer.opentab 0) := by
    rw [openfileLookup, if_neg (by decide +kernel)]
    rfl
  obtain ⟨hid, hreq⟩ := smallPage_reads n
  exact oneRead (c := true) hstart hid hreq hn hopen hrun (Int.natCast_nonneg _)

/-- Four bytes across the two blocks of the small file. -/
theorem shared_reads_in_order_small :
    ∃ s, Relation.ReflTransGen (ReadStep (smallServer.opentab 0)) (smallReaders 4094#32) s ∧
      s.served = [⟨true, 4, [0#8, 0#8, 7#8, 0#8]⟩] ∧
      ReadsInOrder (smallReaders 4094#32).mem (smallServer.opentab 0) s := by
  have hread : (serveRead smallServer (mapRequest (smallReaders 4094#32).mem (smallPage 4#32)) fsreq).map
      (fun x => (bytesAt x.1 fsreq 4, x.2.2)) = some ([0#8, 0#8, 7#8, 0#8], 4) := by decide +kernel
  obtain ⟨s, hrun, hserved⟩ := smallReaders_read (n := 4#32) (by decide) hread
  have hoff : Readable (smallReaders 4094#32).mem (smallServer.opentab 0).file
      (fdOffset (smallReaders 4094#32).mem (smallServer.opentab 0)) := by
    refine Or.inr ⟨?_, ?_⟩
    · decide +kernel
    · decide +kernel
  exact ⟨s, hrun, hserved, shared_reads_in_order (smallReaders_start _) hoff hrun⟩

/-- At the seek position -5 a client gets ten bytes, which are those of its request. -/
theorem negative_position_read :
    ∃ s, ReadersStart (smallServer.opentab 0) (smallReaders 0xFFFFFFFB#32) ∧
      Relation.ReflTransGen (ReadStep (smallServer.opentab 0)) (smallReaders 0xFFFFFFFB#32) s ∧
      s.served = [⟨true, 10, [0#8, 4#8, 0#8, 0#8, 10#8, 0#8, 0#8, 0#8, 0#8, 0#8]⟩] ∧
      ¬ ReadsInOrder (smallReaders 0xFFFFFFFB#32).mem (smallServer.opentab 0) s := by
  have hread : (serveRead smallServer (mapRequest (smallReaders 0xFFFFFFFB#32).mem (smallPage 10#32))
      fsreq).map (fun x => (bytesAt x.1 fsreq 10, x.2.2)) =
        some ([0#8, 4#8, 0#8, 0#8, 10#8, 0#8, 0#8, 0#8, 0#8, 0#8], 10) := by decide +kernel
  obtain ⟨s, hrun, hserved⟩ := smallReaders_read (n := 10#32) (by decide) hread
  refine ⟨s, smallReaders_start _, hrun, hserved, fun hin => ?_⟩
  have hlen : (fileFrom (smallReaders 0xFFFFFFFB#32).mem (smallServer.opentab 0)).length = 0 := by
    rw [length_fileFrom]
    decide +kernel
  have hchunks := hin.chunks
  rw [List.length_eq_zero_iff.mp hlen, hserved] at hchunks
  exact absurd hchunks (by decide)

end Jos.Fs
