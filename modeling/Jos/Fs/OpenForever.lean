import Jos.Fs.OpenFiles
import Jos.Fs.Traced

/-!
# Opening files for ever

The ids of a slot grow by 1024 each time that the slot is used again, and `openfile_alloc` returns
them as an `int`. So a path that resolves can be opened as long as the next id of the lowest free slot
has its upper bit clear, and not otherwise: half of the time.

Main results:
* `OpenInv.opensRun`: the ids of a slot after any number of opens;
* `opened_iff`: when a path that resolves is opened;
* `open_returns_negative`: the first open that is not.
-/

namespace Jos.Fs

open Jos.Lib

/-- What `openfile_alloc` returns: the new file id, as an `int`, or the error. -/
def allocValue (page : Bool) (s : Server) (m : Mem) : Int :=
  match openfileAlloc page s m with
  | (_, _, .error r) => r
  | (s', _, .ok i) => (s'.opentab i).fileid.toInt

/-- What a client should get that opens a path that resolves: an error if it wants to create the
file, and 0 otherwise. -/
def openValue (omode : BitVec 32) : Int :=
  if omode &&& oCreat ≠ 0#32 ∧ omode &&& oExcl ≠ 0#32 then -eFileExists else 0

section

variable {m m' m1 : Mem} {f : Nat} {path : List (BitVec 8)}

/-! ## A path that resolves -/

theorem strAt_no_null (m : Mem) (a n : Nat) : 0#8 ∉ strAt m a n := by
  induction n generalizing a with
  | zero => exact List.not_mem_nil
  | succ n ih =>
      unfold strAt
      split
      · exact List.not_mem_nil
      · rename_i hne
        rw [List.mem_cons, not_or]
        exact ⟨fun heq => hne heq.symm, ih (a + 1)⟩

theorem SameDisk.sameFile (h : SameDisk m m') (hw : Wf m) (hf : FileAt m f) : SameFile m m' f where
  type := (h.unmoved hw).type f hf
  size := h.read32_file hw hf (by decide)
  ptr k hk := (h.unmoved hw).blockPtr_eq hf hk
  ind := (h.unmoved hw).indirect_eq hf
  byte i hi := h.fileByte_eq hw hf hi

theorem SameDisk.sound (h : SameDisk m m') (hs : Sound m) : Sound m' := by
  have hun := h.unmoved hs.wf
  refine ⟨hun.wf hs.wf, fun g hg => ?_, fun g hg hdir => ?_⟩
  · have hg0 := hun.fileAt_iff.mp hg
    rw [(h.sameFile hs.wf hg0).size]
    exact hs.size_le g hg0
  · have hg0 := hun.fileAt_iff.mp hg
    rw [(h.sameFile hs.wf hg0).type] at hdir
    rw [Aligned, (h.sameFile hs.wf hg0).size]
    exact hs.aligned g hg0 hdir

/-- Only the disk matters for a path that resolves. -/
theorem SameDisk.fileOpen (h : SameDisk m m') (hs : Sound m) (h0 : 0#8 ∉ path)
    (hopen : fileOpen m path = some (m1, .ok f)) : ∃ m2, fileOpen m' path = some (m2, .ok f) := by
  have hparts := pathNames_parts h0
  have hsame : ∀ x, Relation.ReflTransGen (Child m) sRoot x → SameFile m m' x :=
    fun x hx => h.sameFile hs.wf (FileAt.root.descendant hx)
  unfold Jos.Fs.fileOpen at hopen ⊢
  rw [walkPath_eq] at hopen ⊢
  rcases @walkNames_exact m sRoot none [] (pathNames path) (fun _ => True) hs.wf hs.dirsOk .root hparts
      fun _ _ _ _ _ _ => trivial with ⟨_, hnone⟩ | ⟨hroom, m3, hrun, _⟩
  · rw [hnone] at hopen
    cases hopen
  rw [hrun] at hopen
  simp only [Option.bind_eq_bind, Option.bind_some, Option.some.injEq, Prod.mk.injEq] at hopen
  have hs' := h.sound hs
  rcases @walkNames_exact m' sRoot none [] (pathNames path) (fun _ => True) hs'.wf hs'.dirsOk .root hparts
      fun _ _ _ _ _ _ => trivial with ⟨hfull, _⟩ | ⟨_, m2, hrun2, _⟩
  · rw [namesNeed_congr hs.dirsOk .root hparts hsame, (h.unmoved hs.wf).freeBlocks_eq] at hfull
    omega
  · refine ⟨m2, ?_⟩
    rw [hrun2, resolve_congr hs.dirsOk .root hparts fun x hx => (hsame x hx).sameNames]
    simp only [Option.bind_eq_bind, Option.bind_some, hopen.2]

theorem fileOpen_trace (hs : Sound m) (h0 : 0#8 ∉ path) (hopen : fileOpen m path = some (m1, .ok f)) :
    Trace (pathNames path) f m1 ∧ (fSize m1 f).toNat ≤ maxfilesize ∧
      ∃ w, walkPath m path = some (m1, w) ∧ w.file = .ok f := by
  have hparts := pathNames_parts h0
  unfold Jos.Fs.fileOpen at hopen
  obtain ⟨⟨m2, w⟩, hwalk, hopen⟩ := Option.bind_eq_some_iff.mp hopen
  simp only [Option.some.injEq, Prod.mk.injEq] at hopen
  obtain ⟨rfl, hok⟩ := hopen
  have hrun := hwalk
  rw [walkPath_eq] at hrun
  obtain ⟨htraced, hw2, hds2⟩ := walkNames_traced hs.wf hs.dirsOk .root hparts hrun hok
  rcases @walkNames_exact m sRoot none [] (pathNames path) (fun _ => True) hs.wf hs.dirsOk .root hparts
      fun _ _ _ _ _ _ => trivial with ⟨_, hnone⟩ | ⟨_, m3, hrun3, hdone⟩
  · rw [hnone] at hrun
    cases hrun
  rw [hrun3] at hrun
  cases hrun
  have hf : FileAt m f := ((resolve_ok_iff .root hparts).mp hok).fileAt hs.dirsOk
  refine ⟨⟨hw2, hds2, htraced⟩, ?_, _, hwalk, hok⟩
  rw [(hdone.filled.sameNames hs.wf hf).2.size]
  exact hs.size_le f hf

/-- `serve_open` finds the file. -/
theorem openOrCreate_found (hs : Sound m) (h0 : 0#8 ∉ path)
    (hopen : fileOpen m path = some (m1, .ok f)) (omode : BitVec 32) :
    openOrCreate m path omode = some (m1,
      if omode &&& oCreat ≠ 0#32 ∧ omode &&& oExcl ≠ 0#32 then .error (-eFileExists) else .ok f) := by
  obtain ⟨htrace, _, w, hwalk, hok⟩ := fileOpen_trace hs h0 hopen
  have hcreate : fileCreate m path = some (m1, .error (-eFileExists)) := by
    rw [fileCreate, hwalk]
    simp only [Option.bind_eq_bind, Option.bind_some, hok]
  unfold openOrCreate
  by_cases hc : omode &&& oCreat = 0#32
  · rw [if_pos hc, if_neg fun hboth => hboth.1 hc]
    exact hopen
  · rw [if_neg hc, hcreate]
    simp only [Option.bind_eq_bind, Option.bind_some]
    by_cases hx : omode &&& oExcl = 0#32
    · rw [if_pos ⟨hx, trivial⟩, if_neg fun hboth => hboth.2 hx]
      exact htrace.traced.fileOpen htrace.wf htrace.dirs
    · rw [if_neg fun hboth => hx hboth.1, if_pos ⟨hc, hx⟩]

/-- After truncation it is still there. -/
theorem truncateOpened_found (htrace : Trace (pathNames path) f m)
    (hsize : (fSize m f).toNat ≤ maxfilesize) (omode : BitVec 32) :
    ∃ m', truncateOpened m f omode = some m' ∧ fileOpen m' path = some (m', .ok f) := by
  unfold truncateOpened
  split
  · exact ⟨m, rfl, htrace.traced.fileOpen htrace.wf htrace.dirs⟩
  · obtain ⟨m', hrun⟩ := fileSetSize_zero htrace.wf htrace.fileAt hsize
    have htrace' := htrace.truncated hrun
    exact ⟨m', hrun, htrace'.traced.fileOpen htrace'.wf htrace'.dirs⟩

end

/-! ## A request -/

section

variable {s : Server} {m m1 : Mem} {i f ipc : Nat}

/-- The next id of a slot. -/
def nextId (s : Server) (i : Nat) : BitVec 32 := (s.opentab i).fileid + BitVec.ofNat 32 maxopen

theorem openfileAlloc_free (hfree : freeSlot s = some i) : openfileAlloc true s m =
    ((s.put i (nextId s i) (s.opentab i).file).mapped (s.opentab i).fd,
      m.fill (s.opentab i).fd 0 4096, .ok i) := by
  unfold openfileAlloc
  rw [hfree]
  simp only
  rw [if_neg (by simp)]
  rfl

theorem nextId_put (s : Server) (i a : Nat) :
    ((((s.put i (nextId s i) (s.opentab i).file).mapped a).opentab i).fileid = nextId s i) ∧
      (((s.put i (nextId s i) (s.opentab i).file).mapped a).opentab i).fd = (s.opentab i).fd := by
  simp [Server.mapped, Server.put]

theorem allocValue_free (hfree : freeSlot s = some i) : allocValue true s m = (nextId s i).toInt := by
  unfold allocValue
  rw [openfileAlloc_free hfree]
  simp only [nextId_put]

theorem serveOpen_negative (hfree : freeSlot s = some i) (hneg : (nextId s i).toInt < 0) :
    ∃ reply, serveOpen true s m ipc = some reply ∧ reply.value = (nextId s i).toInt := by
  unfold serveOpen
  rw [openfileAlloc_free hfree]
  simp only [nextId_put]
  rw [if_pos hneg]
  refine ⟨_, rfl, ?_⟩
  dsimp only

theorem serveOpen_found (hs : Sound m) (hfree : freeSlot s = some i) (hpos : 0 ≤ (nextId s i).toInt)
    (hopen : fileOpen m (reqPath m ipc) = some (m1, .ok f)) :
    ∃ reply, serveOpen true s m ipc = some reply ∧ reply.value = openValue (reqOmode m ipc) ∧
      (openValue (reqOmode m ipc) = 0 → reply.page = some (s.opentab i).fd) := by
  have h0 : 0#8 ∉ reqPath m ipc := strAt_no_null m ipc (maxpathlen - 1)
  -- The disk is the same after `openfile_alloc`.
  have hdisk : SameDisk m (m.fill (s.opentab i).fd 0 4096) := by
    intro x hx hx'
    have := @sameDisk_fd s i (freeSlot_lt hfree)
    exact Mem.fill_of_disjoint _ _ (by omega)
  obtain ⟨m2, hopen2⟩ := hdisk.fileOpen hs h0 hopen
  have hs2 := hdisk.sound hs
  unfold serveOpen
  rw [openfileAlloc_free hfree]
  simp only [nextId_put]
  rw [if_neg (Int.not_lt.mpr hpos), openOrCreate_found hs2 h0 hopen2]
  simp only [Option.bind_eq_bind, Option.bind_some]
  unfold openValue
  by_cases hx : reqOmode m ipc &&& oCreat ≠ 0#32 ∧ reqOmode m ipc &&& oExcl ≠ 0#32
  · rw [if_pos hx, if_pos hx]
    exact ⟨_, rfl, rfl, fun hzero => absurd hzero (by decide)⟩
  · obtain ⟨htrace, hsize, _⟩ := fileOpen_trace hs2 h0 hopen2
    obtain ⟨m3, htrunc, hopen3⟩ := truncateOpened_found htrace hsize (reqOmode m ipc)
    rw [if_neg hx, if_neg hx]
    simp only [htrunc, Option.bind_some, hopen3]
    exact ⟨_, rfl, rfl, fun _ => rfl⟩

end

/-! ## Runs -/

/-- A step of the server or of a client, with any number of opens. -/
inductive OpensStep {Loc : Type} [DecidableEq Loc] : Opens Loc → Opens Loc → Prop
  | open {s : Opens Loc} {page : Bool} {reply : Reply} (ready : s.sending = none)
      (run : serveOpen page s.srv s.mem fsreq = some reply) :
      OpensStep s { s with
        srv := reply.srv
        mem := reply.mem
        sending := reply.page
        issued := issuedAfter page s.srv s.mem s.issued }
  | other {s s' : Opens Loc} (h : OpenStep s s') : OpensStep s s'

/-- Fewer than `MAXOPEN` files are open. -/
def FewOpen {Loc : Type} (s : Opens Loc) : Prop := ∃ i < maxopen, s.maps i = ∅

/-- The path of the request resolves. -/
def Resolves {Loc : Type} (s : Opens Loc) : Prop :=
  ∃ m f, fileOpen s.mem (reqPath s.mem fsreq) = some (m, .ok f)

/-- The request is served: the id is not negative, and there is no error on account of it. -/
def OpenServed {Loc : Type} (s : Opens Loc) : Prop := 0 ≤ allocValue true s.srv s.mem ∧
  ∃ reply, serveOpen true s.srv s.mem fsreq = some reply ∧ reply.value = openValue (reqOmode s.mem fsreq)

/-- The number of the next id of the slot, without its upper bits, has its upper bit clear. -/
def SlotFresh {Loc : Type} (s : Opens Loc) (i : Nat) : Prop :=
  ((s.issued i).length + 1) % 2 ^ 22 < 2 ^ 21

section

variable {Loc : Type} {s s' : Opens Loc} {i : Nat}

theorem nextId_nonneg_iff {k : Nat} (hi : i < maxopen) :
    0 ≤ (BitVec.ofNat 32 (i + 1024 * k) + BitVec.ofNat 32 maxopen).toInt ↔ (k + 1) % 2 ^ 22 < 2 ^ 21 := by
  simp only [maxopen] at hi ⊢
  rw [← BitVec.ofNat_add, BitVec.toInt_eq_toNat_cond, BitVec.toNat_ofNat]
  split <;> omega

theorem OpenInv.nextId_iff (h : OpenInv s) (hi : i < maxopen) :
    0 ≤ (nextId s.srv i).toInt ↔ SlotFresh s i := by
  unfold nextId SlotFresh
  rw [(h.slot i hi).fileid_eq, nextId_nonneg_iff hi]

/-- With a slot that no client has there is a free slot. -/
theorem OpenInv.freeSlot (h : OpenInv s) (hi : i < maxopen) (hmaps : s.maps i = ∅) :
    ∃ k, freeSlot s.srv = some k := by
  have hslot := h.slot i hi
  rw [← Option.isSome_iff_exists, Jos.Fs.freeSlot, List.find?_isSome]
  refine ⟨i, List.mem_range.mpr hi, ?_⟩
  rw [decide_eq_true_eq]
  by_cases hnil : s.issued i = []
  · rw [(hslot.unopened hnil).2]
    exact Nat.zero_le _
  · rw [hslot.counted hnil, hmaps, Finset.card_empty]

variable [DecidableEq Loc]

theorem OpenInv.opensStep (h : OpenInv s) (hstep : OpensStep s s') : OpenInv s' := by
  cases hstep with
  | @«open» page reply ready run =>
      rcases serveOpen_slots run with ⟨s1, m1, r, halloc, hsrv, hpage⟩ |
        ⟨s1, m1, i, halloc, hsame, hpage⟩
      · have hs1 := openfileAlloc_error halloc
        rw [issuedAfter_error halloc, hsrv, hs1, hpage]
        exact ⟨h.slot, fun i _ hs => by cases hs⟩
      · rw [issuedAfter_ok halloc]
        exact h.taken (openfileAlloc_ok halloc) hsame hpage
  | other hstep => exact h.step hstep

theorem OpenInv.opensRun (h : OpenInv s) (hrun : Relation.ReflTransGen OpensStep s s') : OpenInv s' := by
  induction hrun with
  | refl => exact h
  | tail _ hstep ih => exact ih.opensStep hstep

/-- After any run, while fewer than `MAXOPEN` files are open, a path that resolves is opened if and
only if the next id of the slot has its upper bit clear. -/
theorem opened_iff {s0 : Opens Loc} (h0 : OpensStart s0) (hrun : Relation.ReflTransGen OpensStep s0 s)
    (hfew : FewOpen s) (hs : Sound s.mem) (hres : Resolves s) :
    OpenServed s ↔ ∀ i, freeSlot s.srv = some i → SlotFresh s i := by
  have h := (OpenInv.start h0).opensRun hrun
  obtain ⟨k, hk, hmaps⟩ := hfew
  obtain ⟨i, hfree⟩ := h.freeSlot hk hmaps
  obtain ⟨m, f, hopen⟩ := hres
  have hiff := h.nextId_iff (freeSlot_lt hfree)
  unfold OpenServed
  rw [allocValue_free hfree, hiff]
  constructor
  · rintro ⟨hfresh, _⟩ j hj
    rw [hfree] at hj
    cases hj
    exact hfresh
  · intro hall
    have hfresh := hall i hfree
    obtain ⟨reply, hserve, hvalue, _⟩ := serveOpen_found hs hfree (hiff.mpr hfresh) hopen
    exact ⟨hfresh, reply, hserve, hvalue⟩

end

/-! ## The first slot used again and again -/

theorem startOpens_sound : Sound startOpens.mem :=
  (openReq_clients startServer smallDisk slash).disk.sound smallDisk_sound

theorem startOpens_resolves {s : Opens Unit} (hmem : s.mem = startOpens.mem) : Resolves s := by
  have hpath : reqPath startOpens.mem fsreq = [slash] := by decide +kernel
  refine ⟨startOpens.mem, sRoot, ?_⟩
  rw [hmem, hpath]
  rfl

theorem startOpens_openValue : openValue (reqOmode startOpens.mem fsreq) = 0 := by decide +kernel

/-- The first open works. -/
theorem opened_iff_first : OpenServed startOpens := by
  refine (opened_iff startOpens_start .refl ⟨0, by decide, rfl⟩ startOpens_sound
    (startOpens_resolves rfl)).mpr fun i _ => ?_
  unfold SlotFresh
  rw [show startOpens.issued i = [] from rfl]
  decide

theorem freeSlot_zero {s : Server} (h : s.pageref (s.opentab 0).fd ≤ 1) : freeSlot s = some 0 := by
  unfold freeSlot
  rw [maxopen, List.range_succ_eq_map]
  exact List.find?_cons_of_pos (decide_eq_true h)

/-- One client opens the root and closes it, again and again. -/
structure OpenedTimes (n : Nat) (s : Opens Unit) : Prop where
  run : Relation.ReflTransGen (fun a b => OpensStep a b ∧ FewOpen b) startOpens s
  mem : s.mem = startOpens.mem
  maps : ∀ i, s.maps i = ∅
  sending : s.sending = none
  issued : (s.issued 0).length = n

theorem OpenedTimes.inv {n : Nat} {s : Opens Unit} (h : OpenedTimes n s) : OpenInv s :=
  (OpenInv.start startOpens_start).opensRun (h.run.lift id fun _ _ hstep => hstep.1)

theorem OpenedTimes.freeSlot {n : Nat} {s : Opens Unit} (h : OpenedTimes n s) :
    freeSlot s.srv = some 0 := by
  have hslot := h.inv.slot 0 (by decide)
  refine freeSlot_zero ?_
  by_cases hnil : s.issued 0 = []
  · rw [(hslot.unopened hnil).2]
    exact Nat.zero_le _
  · rw [hslot.counted hnil, h.maps, Finset.card_empty]

theorem OpenedTimes.next {n : Nat} {s : Opens Unit} (h : OpenedTimes n s) (hn : n + 1 < 2 ^ 21) :
    ∃ s', OpenedTimes (n + 1) s' := by
  have hfree := h.freeSlot
  have hpos : 0 ≤ (nextId s.srv 0).toInt := by
    rw [h.inv.nextId_iff (by decide), SlotFresh, h.issued]
    omega
  have hs : Sound s.mem := by
    rw [h.mem]
    exact startOpens_sound
  obtain ⟨m, f, hopen⟩ := startOpens_resolves h.mem
  obtain ⟨reply, hserve, _, hpage⟩ := serveOpen_found hs hfree hpos hopen
  have hsend := hpage (by rw [h.mem]; exact startOpens_openValue)
  have hfd : (s.srv.opentab 0).fd = (reply.srv.opentab 0).fd := by
    rw [s.srv.fd_eq 0 (by decide), reply.srv.fd_eq 0 (by decide)]
  have h1 := OpensStep.open h.sending hserve
  rw [issuedAfter_ok (openfileAlloc_free hfree)] at h1
  obtain ⟨s1, h1, hsend1, hmaps1, hlen1⟩ : ∃ s1, OpensStep s s1 ∧
      s1.sending = some (s1.srv.opentab 0).fd ∧ (∀ i, s1.maps i = ∅) ∧ (s1.issued 0).length = n + 1 :=
    ⟨_, h1, hsend.trans (congrArg some hfd), h.maps, by simp [h.issued]⟩
  obtain ⟨s2, h2, hsend2, hmaps2, hlen2⟩ : ∃ s2, OpensStep s1 s2 ∧ s2.sending = none ∧
      s2.maps = Function.update s1.maps 0 {()} ∧ (s2.issued 0).length = n + 1 :=
    ⟨_, .other (.deliver () (by decide) hsend1), rfl, by simp [hmaps1], hlen1⟩
  obtain ⟨s3, h3, hsend3, hmaps3, hlen3⟩ : ∃ s3, OpensStep s2 s3 ∧ s3.sending = none ∧
      (∀ i, s3.maps i = ∅) ∧ (s3.issued 0).length = n + 1 := by
    refine ⟨_, .other (.unmap (i := 0) (x := ()) (by decide) (by simp [hmaps2])), hsend2, fun i => ?_, hlen2⟩
    by_cases hi : i = 0
    · subst hi
      simp [hmaps2]
    · simp [hmaps2, Function.update_of_ne hi, hmaps1]
  have hfew2 : FewOpen s2 := by
    refine ⟨1, by decide, ?_⟩
    rw [hmaps2, Function.update_of_ne (by decide)]
    exact hmaps1 1
  have hrun := ((h.run.tail ⟨h1, 0, by decide, hmaps1 0⟩).tail ⟨h2, hfew2⟩).tail ⟨h3, 0, by decide, hmaps3 0⟩
  exact ⟨{ s3 with mem := startOpens.mem }, hrun.tail ⟨.other (.memory startOpens.mem), 0, by decide, hmaps3 0⟩,
    rfl, hmaps3, hsend3, hlen3⟩

theorem openedTimes (n : Nat) (hn : n < 2 ^ 21) : ∃ s, OpenedTimes n s := by
  induction n with
  | zero => exact ⟨startOpens, .refl, rfl, fun _ => rfl, rfl, rfl⟩
  | succ n ih =>
      obtain ⟨s, h⟩ := ih (by omega)
      exact h.next hn

/-- After `2 ^ 21 - 1` opens and closes the next id is negative, and the root cannot be opened. -/
theorem open_returns_negative : ∃ s : Opens Unit,
    Relation.ReflTransGen (fun a b => OpensStep a b ∧ FewOpen b) startOpens s ∧ FewOpen s ∧
      Sound s.mem ∧ Resolves s ∧ allocValue true s.srv s.mem < 0 ∧
      ∃ reply, serveOpen true s.srv s.mem fsreq = some reply ∧ reply.value < 0 := by
  obtain ⟨s, h⟩ := openedTimes (2 ^ 21 - 1) (by decide)
  have hneg : (nextId s.srv 0).toInt < 0 := by
    rw [← Int.not_le, h.inv.nextId_iff (by decide), SlotFresh, h.issued]
    decide
  have hs : Sound s.mem := by
    rw [h.mem]
    exact startOpens_sound
  obtain ⟨reply, hserve, hvalue⟩ := @serveOpen_negative s.srv s.mem 0 fsreq h.freeSlot hneg
  refine ⟨s, h.run, ⟨0, by decide, h.maps 0⟩, hs, startOpens_resolves h.mem, ?_, reply, hserve, ?_⟩
  · rw [allocValue_free h.freeSlot]
    exact hneg
  · rw [hvalue]
    exact hneg

end Jos.Fs
