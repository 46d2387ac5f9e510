import Jos.Fs.DirSize
import Mathlib.Logic.Relation
import Mathlib.Data.Finset.Card
import Mathlib.Algebra.Group.Nat.Defs

/-!
# File ids

The server tells from the reference count of an `Fd` page whether a client still has the file open:
the page is mapped by the server, and by the clients that got it. A slot of the table is used again
when only the server maps its page, with the next file id of that slot. So an id that no client
holds any more is not accepted again, until the ids of its slot wrap around.

Main results:
* `OpenInv.run`: the table over a run of opens, maps and unmaps;
* `stale_ids_refused`: which ids are accepted.
-/

namespace Jos.Fs

open Jos.Lib

/-- The server, the places (of type `Loc`) where clients map the `Fd` page of each slot, the page
that is being sent to a client, and the ids that `openfile_alloc` has issued for each slot, the
latest one first. -/
structure Opens (Loc : Type) where
  srv : Server
  mem : Mem
  maps : Nat → Finset Loc
  sending : Option Nat
  issued : Nat → List (BitVec 32)

/-- The server and `n` places map the page of slot `i`. -/
def Server.counted (s : Server) (i n : Nat) : Server :=
  { s with pageref := Function.update s.pageref (s.opentab i).fd (n + 1) }

/-- The ids issued after a call of `openfile_alloc`. -/
def issuedAfter (page : Bool) (s : Server) (m : Mem) (issued : Nat → List (BitVec 32)) :
    Nat → List (BitVec 32) :=
  match openfileAlloc page s m with
  | (_, _, .error _) => issued
  | (s', _, .ok i) => Function.update issued i ((s'.opentab i).fileid :: issued i)

/-- One step of the server or of a client. The reference counts are the numbers of mappings. -/
inductive OpenStep {Loc : Type} [DecidableEq Loc] : Opens Loc → Opens Loc → Prop
  | open {s : Opens Loc} {page : Bool} {reply : Reply} (ready : s.sending = none)
      (run : serveOpen page s.srv s.mem fsreq = some reply)
      (few : ∀ i, (issuedAfter page s.srv s.mem s.issued i).length < 2 ^ 22) :
      OpenStep s { s with
        srv := reply.srv
        mem := reply.mem
        sending := reply.page
        issued := issuedAfter page s.srv s.mem s.issued }
  /-- The client maps the page that comes with the reply. -/
  | deliver {s : Opens Loc} {i : Nat} (x : Loc) (hi : i < maxopen)
      (sending : s.sending = some (s.srv.opentab i).fd) :
      OpenStep s { s with
        srv := s.srv.counted i (insert x (s.maps i)).card
        maps := Function.update s.maps i (insert x (s.maps i))
        sending := none }
  /-- The client does not want a page. -/
  | drop {s : Opens Loc} : OpenStep s { s with sending := none }
  /-- A client maps a page that a client has, as `fork`, `spawn` and `dup` do. -/
  | map {s : Opens Loc} {i : Nat} (x : Loc) (hi : i < maxopen) (given : (s.maps i).Nonempty) :
      OpenStep s { s with
        srv := s.srv.counted i (insert x (s.maps i)).card
        maps := Function.update s.maps i (insert x (s.maps i)) }
  /-- A client unmaps a page, or ends. -/
  | unmap {s : Opens Loc} {i : Nat} {x : Loc} (hi : i < maxopen) (mapped : x ∈ s.maps i) :
      OpenStep s { s with
        srv := s.srv.counted i ((s.maps i).erase x).card
        maps := Function.update s.maps i ((s.maps i).erase x) }
  /-- The memory changes: a client writes its pages, or the server handles other requests. -/
  | memory {s : Opens Loc} (m' : Mem) : OpenStep s { s with mem := m' }

/-- After `serve_init`. -/
structure OpensStart {Loc : Type} (s : Opens Loc) : Prop where
  fileid : ∀ i < maxopen, (s.srv.opentab i).fileid = BitVec.ofNat 32 i
  pageref : ∀ i < maxopen, s.srv.pageref (s.srv.opentab i).fd = 0
  maps : ∀ i, s.maps i = ∅
  sending : s.sending = none
  issued : ∀ i, s.issued i = []

/-- The slot of a file id. -/
def slotOfId (id : BitVec 32) : Nat := id.toNat % maxopen

/-- The id was issued and no client can use it: it is not the latest one of its slot, or nobody but
the server has the page and the page is not being sent. -/
def Gone {Loc : Type} (s : Opens Loc) (id : BitVec 32) : Prop :=
  id ∈ s.issued (slotOfId id) ∧ ((s.issued (slotOfId id)).head? = some id →
    s.maps (slotOfId id) = ∅ ∧ s.sending ≠ some (s.srv.opentab (slotOfId id)).fd)

/-! ## The table of open files -/

section

variable {s s' : Server} {m m' : Mem} {page : Bool} {i j : Nat} {r : Int} {ipc : Nat} {reply : Reply}

/-- The slots have the same ids and pages, with the same counts. -/
structure SameSlots (s s' : Server) : Prop where
  fileid : ∀ i, (s'.opentab i).fileid = (s.opentab i).fileid
  fd : ∀ i, (s'.opentab i).fd = (s.opentab i).fd
  pageref : s'.pageref = s.pageref

theorem SameSlots.refl (s : Server) : SameSlots s s := ⟨fun _ => rfl, fun _ => rfl, rfl⟩

theorem sameSlots_put (s : Server) (i file : Nat) :
    SameSlots s (s.put i (s.opentab i).fileid file) := by
  refine ⟨fun j => ?_, fun j => ?_, rfl⟩
  · simp only [Server.put]
    split
    · rename_i heq
      rw [heq]
    · rfl
  · simp only [Server.put]
    split
    · rename_i heq
      rw [heq]
    · rfl

/-- The slot that `openfile_alloc` takes has the next id, and the server alone maps its page. -/
structure SlotTaken (s : Server) (i : Nat) (s' : Server) : Prop where
  lt : i < maxopen
  free : s.pageref (s.opentab i).fd ≤ 1
  fileid : (s'.opentab i).fileid = (s.opentab i).fileid + BitVec.ofNat 32 maxopen
  other : ∀ j ≠ i, (s'.opentab j).fileid = (s.opentab j).fileid
  fd : ∀ j, (s'.opentab j).fd = (s.opentab j).fd
  pageref : s'.pageref = Function.update s.pageref (s.opentab i).fd 1

theorem openfileAlloc_error (h : openfileAlloc page s m = (s', m', .error r)) : s' = s := by
  unfold openfileAlloc at h
  split at h
  · cases h
    rfl
  · simp only at h
    split at h
    · cases h
      rfl
    · cases h

theorem openfileAlloc_ok (h : openfileAlloc page s m = (s', m', .ok i)) : SlotTaken s i s' := by
  unfold openfileAlloc at h
  split at h
  · cases h
  · rename_i k hfree
    simp only at h
    split at h
    · cases h
    · cases h
      rw [freeSlot] at hfree
      have hlt := List.mem_range.mp (List.mem_of_find?_eq_some hfree)
      have hle := List.find?_some hfree
      refine ⟨hlt, by simpa using hle, ?_, fun j hj => ?_, fun j => ?_, ?_⟩
      · simp [Server.mapped, Server.put]
      · simp [Server.mapped, Server.put, hj]
      · simp only [Server.mapped, Server.put]
        split
        · rename_i heq
          rw [heq]
        · rfl
      · funext a
        simp only [Server.mapped, Server.put, Function.update_apply]

theorem issuedAfter_error {issued : Nat → List (BitVec 32)}
    (h : openfileAlloc page s m = (s', m', .error r)) : issuedAfter page s m issued = issued := by
  unfold issuedAfter
  split
  · rfl
  · rename_i heq
    cases h.symm.trans heq

theorem issuedAfter_ok {issued : Nat → List (BitVec 32)}
    (h : openfileAlloc page s m = (s', m', .ok i)) : issuedAfter page s m issued =
      Function.update issued i ((s'.opentab i).fileid :: issued i) := by
  unfold issuedAfter
  split
  · rename_i heq
    cases h.symm.trans heq
  · rename_i heq
    cases h.symm.trans heq
    rfl

/-- `serve_open` changes the table as `openfile_alloc` does, and sends the page of that slot. -/
theorem serveOpen_slots (h : serveOpen page s m ipc = some reply) :
    (∃ s1 m1 r, openfileAlloc page s m = (s1, m1, .error r) ∧ reply.srv = s1 ∧ reply.page = none) ∨
      ∃ s1 m1 i, openfileAlloc page s m = (s1, m1, .ok i) ∧ SameSlots s1 reply.srv ∧
        (reply.page = none ∨ reply.page = some (s1.opentab i).fd) := by
  unfold serveOpen at h
  generalize halloc : openfileAlloc page s m = res at h
  obtain ⟨s1, m1, q⟩ := res
  cases q with
  | error r =>
      cases h
      exact Or.inl ⟨_, _, _, rfl, rfl, rfl⟩
  | ok i =>
      right
      refine ⟨s1, m1, i, rfl, ?_⟩
      simp only at h
      split at h
      · cases h
        exact ⟨.refl s1, Or.inl rfl⟩
      · simp only [Option.bind_eq_bind, Option.bind_eq_some_iff] at h
        obtain ⟨⟨m2, q2⟩, _, h⟩ := h
        cases q2 with
        | error r =>
            cases h
            exact ⟨.refl s1, Or.inl rfl⟩
        | ok f =>
            simp only [Option.bind_eq_some_iff] at h
            obtain ⟨m3, _, ⟨m4, q4⟩, _, h⟩ := h
            cases q4 with
            | error r =>
                cases h
                exact ⟨.refl s1, Or.inl rfl⟩
            | ok f' =>
                cases h
                exact ⟨sameSlots_put s1 i f', Or.inr rfl⟩

theorem fd_inj (s : Server) (hi : i < maxopen) (hj : j < maxopen)
    (h : (s.opentab i).fd = (s.opentab j).fd) : i = j := by
  rw [s.fd_eq i hi, s.fd_eq j hj] at h
  omega

end

/-! ## One slot -/

section

variable {Loc : Type} {i n : Nat} {fileid : BitVec 32} {maps l : Finset Loc}
  {issued : List (BitVec 32)}

/-- A slot: its current id, the reference count of its page, the places where clients map that
page, and the ids issued for it. -/
structure SlotInv (i : Nat) (fileid : BitVec 32) (n : Nat) (maps : Finset Loc)
    (issued : List (BitVec 32)) : Prop where
  fileid_eq : fileid = BitVec.ofNat 32 (i + 1024 * issued.length)
  latest : issued ≠ [] → issued.head? = some fileid
  ids : ∀ id ∈ issued, ∃ k ≤ issued.length, id = BitVec.ofNat 32 (i + 1024 * k)
  unopened : issued = [] → maps = ∅ ∧ n = 0
  counted : issued ≠ [] → n = maps.card + 1

theorem SlotInv.start : SlotInv i (BitVec.ofNat 32 i) 0 (∅ : Finset Loc) [] where
  fileid_eq := by simp
  latest h := absurd rfl h
  ids id h := by simp at h
  unopened _ := ⟨rfl, rfl⟩
  counted h := absurd rfl h

theorem SlotInv.remap (h : SlotInv i fileid n maps issued) (hne : issued ≠ []) :
    SlotInv i fileid (l.card + 1) l issued :=
  ⟨h.fileid_eq, h.latest, h.ids, fun hnil => absurd hnil hne, fun _ => rfl⟩

theorem SlotInv.issued_ne (h : SlotInv i fileid n maps issued) (hne : maps.Nonempty) :
    issued ≠ [] := by
  intro hnil
  rw [(h.unopened hnil).1] at hne
  exact Finset.not_nonempty_empty hne

/-- Nobody else has the page of a slot that `openfile_alloc` takes. -/
theorem SlotInv.maps_empty (h : SlotInv i fileid n maps issued) (hfree : n ≤ 1) : maps = ∅ := by
  by_cases hnil : issued = []
  · exact (h.unopened hnil).1
  · rw [h.counted hnil] at hfree
    exact Finset.card_eq_zero.mp (by omega)

theorem SlotInv.taken (h : SlotInv i fileid n maps issued) (hfree : n ≤ 1) :
    SlotInv i (fileid + BitVec.ofNat 32 maxopen) 1 maps
      ((fileid + BitVec.ofNat 32 maxopen) :: issued) := by
  have hid : fileid + BitVec.ofNat 32 maxopen = BitVec.ofNat 32 (i + 1024 * (issued.length + 1)) := by
    rw [h.fileid_eq, ← BitVec.ofNat_add, maxopen, Nat.mul_succ, Nat.add_assoc]
  refine ⟨hid, fun _ => rfl, fun id hmem => ?_, (by simp), fun _ => ?_⟩
  · rcases List.mem_cons.mp hmem with rfl | hmem
    · exact ⟨issued.length + 1, Nat.le_refl _, hid⟩
    · obtain ⟨k, hk, heq⟩ := h.ids id hmem
      exact ⟨k, Nat.le_succ_of_le hk, heq⟩
  · rw [h.maps_empty hfree, Finset.card_empty]

/-- The next id is new, as long as the ids have not wrapped around. -/
theorem SlotInv.next_new (h : SlotInv i fileid n maps issued)
    (hfew : issued.length + 1 < 2 ^ 22) {id : BitVec 32} (hid : id ∈ issued) :
    id ≠ fileid + BitVec.ofNat 32 maxopen := by
  obtain ⟨k, hk, rfl⟩ := h.ids id hid
  rw [h.fileid_eq, ← BitVec.ofNat_add]
  intro heq
  have hnat := congrArg BitVec.toNat heq
  simp only [BitVec.toNat_ofNat, maxopen] at hnat
  omega

end

/-! ## All slots -/

section

variable {Loc : Type} {s s' : Opens Loc} {i : Nat} {id : BitVec 32}

/-- What holds between any two steps. -/
structure OpenInv {Loc : Type} (s : Opens Loc) : Prop where
  slot : ∀ i < maxopen, SlotInv i (s.srv.opentab i).fileid (s.srv.pageref (s.srv.opentab i).fd)
    (s.maps i) (s.issued i)
  sent : ∀ i < maxopen, s.sending = some (s.srv.opentab i).fd → s.issued i ≠ []

theorem OpenInv.start (h : OpensStart s) : OpenInv s where
  slot i hi := by
    rw [h.fileid i hi, h.pageref i hi, h.maps i, h.issued i]
    exact .start
  sent i _ hs := by
    rw [h.sending] at hs
    cases hs

theorem fd_ne (srv : Server) {i j : Nat} (hi : i < maxopen) (hj : j < maxopen) (hne : j ≠ i) :
    (srv.opentab j).fd ≠ (srv.opentab i).fd := fun heq => hne (fd_inj srv hj hi heq)

/-- The mappings of one slot change. -/
theorem OpenInv.remap {l : Finset Loc} {sending : Option Nat} (h : OpenInv s) (hi : i < maxopen)
    (hne : s.issued i ≠ []) (hsend : ∀ a, sending = some a → s.sending = some a) :
    OpenInv { s with
      srv := s.srv.counted i l.card
      maps := Function.update s.maps i l
      sending := sending } where
  slot j hj := by
    by_cases hji : j = i
    · subst hji
      simp only [Server.counted, Function.update_self]
      exact (h.slot j hj).remap hne
    · simp only [Server.counted, Function.update_of_ne hji, Function.update_of_ne (fd_ne s.srv hi hj hji)]
      exact h.slot j hj
  sent j hj hs := h.sent j hj (hsend _ hs)

/-- `openfile_alloc` issues the next id of a slot that no client has. -/
theorem OpenInv.taken {srv srv' : Server} {m : Mem} {sending : Option Nat} (h : OpenInv s)
    (ht : SlotTaken s.srv i srv) (hsame : SameSlots srv srv')
    (hsend : sending = none ∨ sending = some (srv.opentab i).fd) :
    OpenInv { s with
      srv := srv'
      mem := m
      sending := sending
      issued := Function.update s.issued i ((srv.opentab i).fileid :: s.issued i) } where
  slot j hj := by
    simp only [hsame.fileid, hsame.fd, hsame.pageref, ht.fd, ht.pageref]
    by_cases hji : j = i
    · subst hji
      rw [Function.update_self, Function.update_self, ht.fileid]
      exact (h.slot j hj).taken ht.free
    · rw [Function.update_of_ne (fd_ne s.srv ht.lt hj hji), Function.update_of_ne hji, ht.other j hji]
      exact h.slot j hj
  sent j hj hs := by
    simp only [hsame.fd] at hs
    rcases hsend with hnone | hsome
    · rw [hnone] at hs
      cases hs
    · rw [hsome] at hs
      have hji : j = i := fd_inj srv hj ht.lt (Option.some.inj hs).symm
      subst hji
      simp

variable [DecidableEq Loc]

theorem OpenInv.step (h : OpenInv s) (hstep : OpenStep s s') : OpenInv s' := by
  cases hstep with
  | @«open» page reply ready run few =>
      rcases serveOpen_slots run with ⟨s1, m1, r, halloc, hsrv, hpage⟩ |
        ⟨s1, m1, i, halloc, hsame, hpage⟩
      · have hs1 := openfileAlloc_error halloc
        rw [issuedAfter_error halloc, hsrv, hs1, hpage]
        exact ⟨h.slot, fun i _ hs => by cases hs⟩
      · rw [issuedAfter_ok halloc]
        exact h.taken (openfileAlloc_ok halloc) hsame hpage
  | deliver x hi sending => exact h.remap hi (h.sent _ hi sending) fun a ha => by cases ha
  | drop => exact ⟨h.slot, fun i _ hs => by cases hs⟩
  | map x hi given => exact h.remap hi ((h.slot _ hi).issued_ne given) fun a ha => ha
  | unmap hi mapped => exact h.remap hi ((h.slot _ hi).issued_ne ⟨_, mapped⟩) fun a ha => ha
  | memory m' => exact ⟨h.slot, h.sent⟩

theorem slotOfId_lt (id : BitVec 32) : slotOfId id < maxopen := Nat.mod_lt _ (by decide)

theorem openfileLookup_eq (srv : Server) (id : BitVec 32) :
    (∃ o, openfileLookup srv id = .ok o) ↔
      1 < srv.pageref (srv.opentab (slotOfId id)).fd ∧ (srv.opentab (slotOfId id)).fileid = id := by
  rw [openfileLookup, slotOfId]
  split
  · rename_i hbad
    simp only [reduceCtorEq, exists_false, false_iff, not_and]
    intro hlt
    rcases hbad with hle | hne
    · omega
    · exact fun heq => absurd heq hne
  · rename_i hgood
    simp only [not_or, Nat.not_le, ne_eq, Decidable.not_not] at hgood
    simp only [Except.ok.injEq, exists_eq', true_iff]
    exact hgood

omit [DecidableEq Loc] in
/-- An id is accepted when it is the latest of its slot and a client maps the page. -/
theorem OpenInv.lookup_iff (h : OpenInv s) (id : BitVec 32) :
    (∃ o, openfileLookup s.srv id = .ok o) ↔
      (s.issued (slotOfId id)).head? = some id ∧ (s.maps (slotOfId id)).Nonempty := by
  have hslot := h.slot _ (slotOfId_lt id)
  rw [openfileLookup_eq]
  constructor
  · rintro ⟨hlt, heq⟩
    have hne : s.issued (slotOfId id) ≠ [] := by
      intro hnil
      rw [(hslot.unopened hnil).2] at hlt
      exact absurd hlt (by decide)
    rw [hslot.counted hne] at hlt
    refine ⟨?_, Finset.card_pos.mp (by omega)⟩
    rw [hslot.latest hne, heq]
  · rintro ⟨hhead, hmaps⟩
    have hne : s.issued (slotOfId id) ≠ [] := by
      intro hnil
      rw [hnil] at hhead
      cases hhead
    have hpos := Finset.card_pos.mpr hmaps
    rw [hslot.latest hne] at hhead
    exact ⟨by rw [hslot.counted hne]; omega, Option.some.inj hhead⟩

omit [DecidableEq Loc] in
theorem Gone.not_accepted (hg : Gone s id) (h : OpenInv s) (o : OpenFile) :
    openfileLookup s.srv id ≠ .ok o := by
  intro hok
  obtain ⟨hhead, hmaps⟩ := (h.lookup_iff id).mp ⟨o, hok⟩
  rw [(hg.2 hhead).1] at hmaps
  exact Finset.not_nonempty_empty hmaps

/-- Nobody gets hold of an id again that nobody has. -/
theorem Gone.step (hg : Gone s id) (h : OpenInv s) (hstep : OpenStep s s') : Gone s' id := by
  obtain ⟨hmem, hgone⟩ := hg
  cases hstep with
  | @«open» page reply ready run few =>
      rcases serveOpen_slots run with ⟨s1, m1, r, halloc, hsrv, hpage⟩ |
        ⟨s1, m1, i, halloc, hsame, hpage⟩
      · rw [issuedAfter_error halloc, hpage]
        exact ⟨hmem, fun hhead => ⟨(hgone hhead).1, by simp⟩⟩
      · have ht := openfileAlloc_ok halloc
        have hfew := few i
        rw [issuedAfter_ok halloc] at hfew ⊢
        rw [Function.update_self, List.length_cons] at hfew
        by_cases hi : slotOfId id = i
        · subst hi
          refine ⟨?_, fun hhead => ?_⟩
          · simp only [Function.update_self]
            exact List.mem_cons_of_mem _ hmem
          · -- The head is the new id of the slot.
            simp only [Function.update_self, List.head?_cons, Option.some.injEq] at hhead
            rw [ht.fileid] at hhead
            exact absurd hhead.symm ((h.slot _ ht.lt).next_new hfew hmem)
        · refine ⟨?_, fun hhead => ?_⟩
          · simp only [Function.update_of_ne hi]
            exact hmem
          · simp only [Function.update_of_ne hi] at hhead
            refine ⟨(hgone hhead).1, ?_⟩
            simp only [hsame.fd]
            rcases hpage with hnone | hsome
            · simp [hnone]
            · rw [hsome, Ne, Option.some.injEq]
              exact fd_ne s1 (slotOfId_lt id) ht.lt (Ne.symm hi)
  | @deliver i x hi sending =>
      refine ⟨hmem, fun hhead => ?_⟩
      by_cases heq : slotOfId id = i
      · subst heq
        exact absurd sending (hgone hhead).2
      · simp only [Function.update_of_ne heq]
        exact ⟨(hgone hhead).1, by simp⟩
  | drop => exact ⟨hmem, fun hhead => ⟨(hgone hhead).1, by simp⟩⟩
  | @map i x hi given =>
      refine ⟨hmem, fun hhead => ?_⟩
      by_cases heq : slotOfId id = i
      · subst heq
        rw [(hgone hhead).1] at given
        exact absurd given Finset.not_nonempty_empty
      · simp only [Function.update_of_ne heq]
        exact hgone hhead
  | @unmap i x hi mapped =>
      refine ⟨hmem, fun hhead => ?_⟩
      by_cases heq : slotOfId id = i
      · subst heq
        rw [(hgone hhead).1] at mapped
        exact absurd mapped (Finset.notMem_empty x)
      · simp only [Function.update_of_ne heq]
        exact hgone hhead
  | memory m' => exact ⟨hmem, hgone⟩

theorem OpenInv.run (h : OpenInv s) (hrun : Relation.ReflTransGen OpenStep s s') : OpenInv s' := by
  induction hrun with
  | refl => exact h
  | tail _ hstep ih => exact ih.step hstep

theorem Gone.run (hg : Gone s id) (h : OpenInv s) (hrun : Relation.ReflTransGen OpenStep s s') :
    Gone s' id := by
  induction hrun with
  | refl => exact hg
  | tail hrun hstep ih => exact ih.step (h.run hrun) hstep

/-- In every run with fewer than `2 ^ 22` opens for each slot, an id is accepted exactly when it is
the latest one of its slot and a client maps the page; and an id that no client has any more is
never accepted again. -/
theorem stale_ids_refused {s0 : Opens Loc} (h0 : OpensStart s0)
    (hrun : Relation.ReflTransGen OpenStep s0 s) :
    (∀ id, (∃ o, openfileLookup s.srv id = .ok o) ↔
      (s.issued (slotOfId id)).head? = some id ∧ (s.maps (slotOfId id)).Nonempty) ∧
    ∀ id s', Gone s id → Relation.ReflTransGen OpenStep s s' → ∀ o, openfileLookup s'.srv id ≠ .ok o := by
  have h := (OpenInv.start h0).run hrun
  exact ⟨h.lookup_iff, fun id s' hg hrun' => (hg.run h hrun').not_accepted (h.run hrun')⟩

end

/-! ## One file opened and closed -/

/-- The server before a client opens the root. -/
def startOpens : Opens Unit where
  srv := startServer
  mem := openReq smallDisk slash
  maps _ := ∅
  sending := none
  issued _ := []

theorem startOpens_start : OpensStart startOpens :=
  ⟨fun _ _ => rfl, fun _ _ => rfl, fun _ => rfl, rfl, fun _ => rfl⟩

theorem length_issuedAfter_le {issued : Nat → List (BitVec 32)} (page : Bool) (s : Server) (m : Mem)
    (hissued : ∀ i, issued i = []) (i : Nat) : (issuedAfter page s m issued i).length ≤ 1 := by
  rcases halloc : openfileAlloc page s m with ⟨s', m', r | k⟩
  · rw [issuedAfter_error halloc, hissued]
    exact Nat.zero_le 1
  · rw [issuedAfter_ok halloc]
    by_cases hk : i = k
    · rw [hk, Function.update_self, hissued]
      exact Nat.le_refl 1
    · rw [Function.update_of_ne hk, hissued]
      exact Nat.zero_le 1

/-- A client opens the root, has its page, and unmaps it. -/
theorem stale_ids_refused_small : ∃ s s' : Opens Unit,
    Relation.ReflTransGen OpenStep startOpens s ∧
    (∃ o, openfileLookup s.srv 1024#32 = .ok o) ∧ Relation.ReflTransGen OpenStep s s' ∧
    ∀ o, openfileLookup s'.srv 1024#32 ≠ .ok o := by
  have hopen : (serveOpen true startOpens.srv startOpens.mem fsreq).any (fun reply =>
      reply.page = some (reply.srv.opentab 0).fd) = true := by decide +kernel
  have hissued : issuedAfter true startOpens.srv startOpens.mem startOpens.issued 0 = [1024#32] := by
    decide +kernel
  have hfew : ∀ i, (issuedAfter true startOpens.srv startOpens.mem startOpens.issued i).length < 2 ^ 22 :=
    fun i => Nat.lt_of_le_of_lt (length_issuedAfter_le _ _ _ (fun _ => rfl) i) (by decide)
  simp only [Option.any_eq_true, decide_eq_true_eq] at hopen
  obtain ⟨reply, hserve, hpage⟩ := hopen
  have hslot : slotOfId 1024#32 = 0 := by decide
  have hstep := OpenStep.open rfl hserve hfew
  generalize issuedAfter true startOpens.srv startOpens.mem startOpens.issued = issued at hstep hissued
  obtain ⟨s1, h1, hissued1, hsend1⟩ : ∃ s1, OpenStep startOpens s1 ∧ s1.issued 0 = [1024#32] ∧
      s1.sending = some (s1.srv.opentab 0).fd := ⟨_, hstep, hissued, hpage⟩
  obtain ⟨s2, h2, hissued2, hmaps2, hsend2⟩ : ∃ s2, OpenStep s1 s2 ∧ s2.issued 0 = [1024#32] ∧
      s2.maps 0 = {()} ∧ s2.sending = none :=
    ⟨_, .deliver () (by decide) hsend1, hissued1,
      Finset.ext fun _ => by simp, rfl⟩
  obtain ⟨s3, h3, hissued3, hmaps3, hsend3⟩ : ∃ s3, OpenStep s2 s3 ∧ s3.issued 0 = [1024#32] ∧
      s3.maps 0 = ∅ ∧ s3.sending = none :=
    ⟨_, .unmap (i := 0) (x := ()) (by decide) (by simp [hmaps2]), hissued2, by simp [hmaps2], hsend2⟩
  have hrun : Relation.ReflTransGen OpenStep startOpens s2 := .tail (.single h1) h2
  refine ⟨s2, s3, hrun, ?_, .single h3, ?_⟩
  · refine ((stale_ids_refused startOpens_start hrun).1 1024#32).mpr ?_
    rw [hslot, hissued2, hmaps2]
    exact ⟨rfl, Finset.singleton_nonempty ()⟩
  · have hgone : Gone s3 1024#32 := by
      unfold Gone
      rw [hslot, hissued3, hmaps3, hsend3]
      exact ⟨List.mem_singleton_self _, fun _ => ⟨rfl, by simp⟩⟩
    exact (stale_ids_refused startOpens_start (hrun.tail h3)).2 _ _ hgone .refl

end Jos.Fs
