import Jos.Fs.Bitmap
import Jos.Lib.WriteBack

/-!
# What a restarted server reads

Runs of the block cache. Blocks are read in when they are accessed, a store to a page sets its bit
`PTE_D`, and only `flush_block` writes to the disk. A page without `PTE_D` is what is on the disk. So
the disk has each block as the server read it when it flushed the block last, and this is what the
server reads there when it is started again. In particular a block that `alloc_block` has handed out
is in use on the disk as well, until it is freed.

Main results:
* `restart_reads_last_flush`: what a restarted server reads was flushed, block by block;
* `boot_sound`: the state in which `fs_init` leaves a server that starts from a disk;
* `handed_out_across_reboots`: a block in use is not handed out again, over any restarts.
-/

namespace Jos.Fs

open Jos.Lib

/-- A page without `PTE_D` is what is on the disk. -/
def Cache.Synced (c : Cache) : Prop :=
  ∀ x, InCache x → c.mapped (blockno x) = true → c.dirty (blockno x) = false →
    c.mem x = c.disk (x - diskmap)

/-- The pages of the server are gone. -/
def Cache.restart (c : Cache) : Cache where
  mem := fun _ => 0#8
  disk := c.disk
  mapped := fun _ => false
  dirty := fun _ => false

/-! ## Steps of the cache -/

inductive CacheEvent
  /-- An access to the byte at `a`. -/
  | touch (a : Nat)
  /-- Stores to block `b`. -/
  | store (b : Nat)
  /-- `flush_block`, for an address in block `b`. -/
  | flush (b : Nat)

inductive CacheStep : Cache → CacheEvent → Cache → Prop
  | touch {c c' : Cache} {a : Nat} (h : c.touch a = some c') : CacheStep c (.touch a) c'
  | store {c : Cache} {b : Nat} {m : Mem} (page : c.mapped b = true)
      (other : ∀ x, InCache x → blockno x ≠ b → m x = c.mem x) :
      CacheStep c (.store b) { c with mem := m, dirty := Function.update c.dirty b true }
  | flush {c c' : Cache} {a : Nat} (h : c.flushBlock a = some c') :
      CacheStep c (.flush (blockno a)) c'

section

variable {c c' : Cache} {a b x : Nat} {v : BitVec 32} {free : Bool} {depth : Nat} {e : CacheEvent}
  {es : List CacheEvent} {r : Int} {fault : Cache → Nat → Option Cache}

theorem restart_view (hx : InCache x) : c.restart.view x = c.disk (x - diskmap) := by
  unfold Cache.view
  exact if_pos ⟨hx, rfl⟩

theorem InCache.in_block (h : InCache x) :
    blockAddr (blockno x) ≤ x ∧ x < blockAddr (blockno x) + 4096 := by
  rw [h.block]
  omega

theorem Cache.Synced.load (h : c.Synced) (b : Nat) : (c.load b).Synced := by
  intro x hx hm hd
  unfold Cache.load at hm hd ⊢
  simp only [ideRead_block]
  by_cases hb : blockno x = b
  · subst hb
    rw [if_pos hx.in_block]
  · rw [if_neg fun hin => hb (blockno_of_block hin.1 hin.2)]
    simp only [Function.update_of_ne hb] at hm hd
    exact h x hx hm hd

theorem blockIsFree_synced (hf : ∀ c a c', fault c a = some c' → c.Synced → c'.Synced)
    (h : c.blockIsFree fault b = some (c', free)) (hs : c.Synced) : c'.Synced := by
  unfold Cache.blockIsFree at h
  split at h
  · cases h
    exact hs
  · obtain ⟨c₁, hacc, heq⟩ := Option.map_eq_some_iff.mp h
    cases heq
    unfold Cache.access at hacc
    split at hacc
    · cases hacc
      exact hs
    · exact hf _ _ _ hacc hs

theorem bcPgfault_synced (depth : Nat) : ∀ c a c', bcPgfault depth c a = some c' → c.Synced →
    c'.Synced := by
  induction depth with
  | zero =>
      intro c a c' h
      cases h
  | succ depth ih =>
      intro c a c' h hs
      unfold bcPgfault at h
      split at h
      · cases h
      split at h
      · cases h
      obtain ⟨⟨c₁, free⟩, hfree, hr⟩ := Option.bind_eq_some_iff.mp h
      have hc₁ := blockIsFree_synced ih hfree (hs.load (blockno a))
      split at hr
      · cases hr
      · cases hr
        exact hc₁

theorem Cache.Synced.touch (hs : c.Synced) (h : c.touch a = some c') : c'.Synced := by
  unfold Cache.touch Cache.access at h
  split at h
  · cases h
    exact hs
  · exact bcPgfault_synced _ _ _ _ h hs

/-! ### Flushes -/

/-- `flush_block` leaves the block as the server reads it on the disk, whether it writes or not. -/
theorem Cache.Synced.flush_disk (hs : c.Synced) (h : c.flushBlock a = some c') (hx : InCache x)
    (hb : blockno x = blockno a) : c'.disk (x - diskmap) = c.view x := by
  have hview := (flushBlock_sameView h).view
  by_cases hmd : c.mapped (blockno a) = false ∨ c.dirty (blockno a) = false
  · have hsame : c' = c := by
      unfold Cache.flushBlock at h
      rw [if_pos hmd] at h
      split at h
      · cases h
      · exact (Option.some.inj h).symm
    subst hsame
    rw [← hb] at hmd
    by_cases hm : c'.mapped (blockno x) = false
    · unfold Cache.view
      rw [if_pos ⟨hx, hm⟩]
    · have hm : c'.mapped (blockno x) = true := by simpa using hm
      have hd : c'.dirty (blockno x) = false := hmd.resolve_left (by simp [hm])
      rw [view_of_mapped hm]
      exact (hs x hx hm hd).symm
  · have hm : c.mapped (blockno a) = true := by
      by_contra hm
      exact hmd (Or.inl (by simpa using hm))
    have hd : c.dirty (blockno a) = true := by
      by_contra hd
      exact hmd (Or.inr (by simpa using hd))
    have hin := hx.in_block
    rw [hb] at hin
    rw [flushBlock_disk hm hd h hin.1 hin.2, hview]

/-- The other blocks stay as they are on the disk. -/
theorem flush_other (h : c.flushBlock a = some c') (hx : InCache x) (hb : blockno x ≠ blockno a) :
    c'.disk (x - diskmap) = c.disk (x - diskmap) := by
  unfold Cache.flushBlock at h
  split at h
  · cases h
  rename_i hin
  have ha : InCache a := Decidable.not_not.mp hin
  split at h
  · cases h
    rfl
  · cases h
    unfold blksize
    simp only [← ha.block, ideWrite_block]
    rw [Nat.sub_add_cancel hx.1, if_neg fun hin => hb (blockno_of_block hin.1 hin.2)]

theorem Cache.Synced.flush (hs : c.Synced) (h : c.flushBlock a = some c') : c'.Synced := by
  intro x hx hm hd
  by_cases hb : blockno x = blockno a
  · rw [hs.flush_disk h hx hb, ← (flushBlock_sameView h).view, view_of_mapped hm]
  · rw [flush_other h hx hb]
    unfold Cache.flushBlock at h
    split at h
    · cases h
    split at h
    · cases h
      exact hs x hx hm hd
    · cases h
      simp only [Function.update_of_ne hb] at hd
      exact hs x hx hm hd

/-! ### The law -/

theorem CacheStep.synced (h : CacheStep c e c') (hs : c.Synced) : c'.Synced := by
  cases h with
  | touch h => exact hs.touch h
  | @store b m page other =>
      intro x hx hm hd
      by_cases hb : blockno x = b
      · subst hb
        simp only [Function.update_self] at hd
        cases hd
      · simp only [Function.update_of_ne hb] at hd
        exact (other x hx hb).trans (hs x hx hm hd)
  | flush h => exact hs.flush h

/-- A store to the word of a block of the bitmap. -/
theorem store32_step (hm : c.mapped (blockno (bitmapWord b)) = true) :
    CacheStep c (.store (blockno (bitmapWord b))) (c.store32 (bitmapWord b) v) := by
  refine .store hm fun x _ hne => Mem.write32_of_disjoint _ _ ?_
  by_contra hin
  have hx := bitmapWord_block (b := b) (x := x) (by omega) (by omega)
  exact hne (blockno_of_block hx.1 hx.2)

/-- The block cache is a write-back store. -/
theorem cache_writeBack : WriteBack CacheStep Cache.Synced (fun c (x : { x // InCache x }) => c.view x)
    (fun c x => c.restart.view x) (fun e x => e = .store (blockno x))
    fun e x => e = .flush (blockno x) where
  keeps c e c' h hs := h.synced hs
  flushed := by
    rintro c e c' ⟨x, hx⟩ h hs he
    rw [restart_view hx]
    cases h with
    | touch h => cases he
    | store page other => cases he
    | flush h => exact hs.flush_disk h hx (CacheEvent.flush.inj he).symm
  back_same := by
    rintro c e c' ⟨x, hx⟩ h hs he
    rw [restart_view hx, restart_view hx]
    cases h with
    | touch h => rw [(touch_readIn h).1.disk]
    | store page other => rfl
    | flush h => exact flush_other h hx fun hb => he (congrArg CacheEvent.flush hb.symm)
  view_same := by
    rintro c e c' ⟨x, hx⟩ h hs he
    cases h with
    | touch h => rw [(touch_readIn h).1.view]
    | @store b m page other =>
        have hb : blockno x ≠ b := fun hb => he (congrArg CacheEvent.store hb.symm)
        unfold Cache.view
        simp only [other x hx hb]
    | flush h => rw [(flushBlock_sameView h).view]

/-- In any run of the cache: what a restarted server reads in a block is what the server read there
when it flushed the block last, and what was there in the beginning if it never did. And the server
itself reads what it read before, as long as nothing is stored to the block. -/
theorem restart_reads_last_flush (hs : c.Synced) (hrun : LabelledRun CacheStep c es c')
    (hx : InCache x) :
    ((.flush (blockno x) ∉ es ∧ c'.restart.view x = c.restart.view x) ∨
      ∃ es₁ es₂ c₁, es = es₁ ++ .flush (blockno x) :: es₂ ∧ .flush (blockno x) ∉ es₂ ∧
        LabelledRun CacheStep c es₁ c₁ ∧ c'.restart.view x = c₁.view x ∧
        (.store (blockno x) ∉ es₂ → c'.view x = c₁.view x)) ∧
      (.store (blockno x) ∉ es → c'.view x = c.view x) := by
  refine ⟨?_, fun hno => cache_writeBack.view_of_run (a := ⟨x, hx⟩) hrun hs fun e he heq =>
    hno (heq ▸ he)⟩
  rcases cache_writeBack.last_flush hrun hs ⟨x, hx⟩ with
    ⟨hno, hsame⟩ | ⟨es₁, e, es₂, c₁, rfl, rfl, hno, h₁, h₂, hlast⟩
  · exact Or.inl ⟨fun hmem => hno _ hmem rfl, hsame⟩
  · refine Or.inr ⟨es₁, es₂, c₁, rfl, fun hmem => hno _ hmem rfl, h₁, hlast, fun hst => ?_⟩
    refine cache_writeBack.view_of_run (a := ⟨x, hx⟩) h₂ (h₁.inv _ cache_writeBack.keeps hs) ?_
    intro e he heq
    rw [heq] at he
    rcases List.mem_cons.mp he with hne | hmem
    · cases hne
    · exact hst hmem

theorem wideDisk_synced (w : BitVec 32) : (wideDisk w).Synced := fun _ _ _ _ => rfl

/-- A store to the first bitmap block, and a flush. -/
theorem restart_reads_last_flush_wide : ∃ c₁ c', LabelledRun CacheStep (wideDisk 0#32) [.store 2] c₁ ∧
    LabelledRun CacheStep (wideDisk 0#32) [.store 2, .flush 2] c' ∧
      c'.restart.view (bitmapWord 0) = c₁.view (bitmapWord 0) := by
  have hin : InCache (bitmapWord 0) := by
    unfold InCache bitmapWord disksize
    omega
  have hstore : CacheStep (wideDisk 0#32) (.store 2) ((wideDisk 0#32).store32 (bitmapWord 0) 7#32) := by
    have hstep := store32_step (c := wideDisk 0#32) (b := 0) (v := 7#32) rfl
    rwa [blockno_bitmapWord] at hstep
  obtain ⟨c', hflush⟩ := flushBlock_some (c := (wideDisk 0#32).store32 (bitmapWord 0) 7#32) hin
  have hrun : LabelledRun CacheStep (wideDisk 0#32) [.store 2, .flush 2] c' :=
    .cons hstore (.cons (.flush hflush) (.nil c'))
  rcases (restart_reads_last_flush (wideDisk_synced 0#32) hrun hin).1 with
    ⟨hno, -⟩ | ⟨es₁, es₂, c₁, heq, -, h₁, hlast, -⟩
  · exact absurd (by simp [blockno_bitmapWord, bitmapBlock]) hno
  · have hes : es₁ = [.store 2] := by
      rcases es₁ with _ | ⟨e, _ | ⟨e', es⟩⟩
      · cases heq
      · simp only [List.cons_append, List.nil_append, List.cons.injEq] at heq
        rw [← heq.1]
      · simp at heq
    subst hes
    exact ⟨c₁, c', h₁, hrun, hlast⟩

/-! ## Blocks that are handed out -/

/-- A change of the cache after which each block is on the disk as it was or as the server reads it. -/
structure Flushes (c c' : Cache) : Prop where
  synced : c'.Synced
  blocks : ∀ q, (∀ x, InCache x → blockno x = q → c'.restart.view x = c.restart.view x) ∨
    ∀ x, InCache x → blockno x = q → c'.restart.view x = c'.view x

theorem restart_view_congr (h : c'.disk = c.disk) : c'.restart.view = c.restart.view := by
  funext x
  unfold Cache.view Cache.restart
  rw [h]

theorem Flushes.of_disk (h : c'.disk = c.disk) (hs : c'.Synced) : Flushes c c' :=
  ⟨hs, fun _ => Or.inl fun x _ _ => by rw [restart_view_congr h]⟩

theorem Flushes.of_flush (h : c.flushBlock a = some c') (hs : c.Synced) : Flushes c c' := by
  refine ⟨hs.flush h, fun q => ?_⟩
  by_cases hq : q = blockno a
  · refine Or.inr fun x hx hxq => ?_
    rw [restart_view hx, hs.flush_disk h hx (hxq.trans hq), (flushBlock_sameView h).view]
  · refine Or.inl fun x hx hxq => ?_
    rw [restart_view hx, restart_view hx, flush_other h hx fun heq => hq (hxq.symm.trans heq)]

theorem Flushes.after_disk {c₁ : Cache} (h : Flushes c₁ c') (hd : c₁.disk = c.disk) :
    Flushes c c' := by
  refine ⟨h.synced, fun q => ?_⟩
  rw [← restart_view_congr hd]
  exact h.blocks q

theorem CacheStep.flushes (h : CacheStep c e c') (hs : c.Synced) : Flushes c c' := by
  have hs' := h.synced hs
  cases h with
  | touch h => exact .of_disk (touch_readIn h).1.disk hs'
  | store page other => exact .of_disk rfl hs'
  | flush h => exact .of_flush h hs

theorem touch_store_synced {c₁ : Cache} (h : c.touch (bitmapWord b) = some c₁) (hs : c.Synced) :
    (c₁.store32 (bitmapWord b) v).Synced ∧ (c₁.store32 (bitmapWord b) v).disk = c.disk := by
  obtain ⟨hl, hm⟩ := touch_readIn h
  exact ⟨(store32_step hm).synced (hs.touch h), hl.disk⟩

theorem freeBlock_flushes (h : c.freeBlock b = some c') (hs : c.Synced) : Flushes c c' := by
  unfold Cache.freeBlock at h
  split at h
  · cases h
  · obtain ⟨c₁, htouch, hstore⟩ := Option.bind_eq_some_iff.mp h
    cases hstore
    obtain ⟨hs', hd⟩ := touch_store_synced htouch hs
    exact .of_disk hd hs'

theorem allocLoop_flushes (n i : Nat) (h : Cache.allocLoop n c i = some (c', r)) (hs : c.Synced) :
    Flushes c c' := by
  induction n generalizing c i with
  | zero =>
      cases h
      exact .of_disk rfl hs
  | succ n ih =>
      unfold Cache.allocLoop at h
      obtain ⟨⟨c₁, free⟩, hfree, hr⟩ := Option.bind_eq_some_iff.mp h
      have hs₁ := blockIsFree_synced (bcPgfault_synced faultDepth) hfree hs
      have hd₁ := (blockIsFree_readIn (bcPgfault_handles faultDepth) hfree).1.disk
      cases free with
      | false => exact (ih (i + 1) hr hs₁).after_disk hd₁
      | true =>
          simp only [if_true, Option.bind_eq_bind, Option.bind_eq_some_iff] at hr
          obtain ⟨c₂, hclear, c₃, hflush, heq⟩ := hr
          cases heq
          obtain ⟨c₄, htouch, hstore⟩ := Option.bind_eq_some_iff.mp hclear
          cases hstore
          obtain ⟨hs₂, hd₂⟩ := touch_store_synced htouch hs₁
          exact (Flushes.of_flush hflush hs₂).after_disk (hd₂.trans hd₁)

theorem BitmapStep.flushes {e : BitmapCall} (h : BitmapStep c e c') (hs : c.Synced) :
    Flushes c c' := by
  cases h with
  | alloc h => exact allocLoop_flushes _ _ h hs
  | free h => exact freeBlock_flushes h hs

/-! ### Runs with restarts -/

/-- What `fs_init` leaves when the server is started again: the super block and the first bitmap block
have been read. `check_bc` has put back what it overwrites. -/
def Cache.reboot (c : Cache) : Cache := (c.restart.load 1).load 2

inductive ServerEvent
  | bitmap (e : BitmapCall)
  | cache (e : CacheEvent)
  | reboot

/-- The server changes the bitmap in `alloc_block` and `free_block` only, and never the super block. -/
inductive ServerStep : Cache → ServerEvent → Cache → Prop
  | bitmap {c c' : Cache} {e : BitmapCall} (h : BitmapStep c e c') : ServerStep c (.bitmap e) c'
  | cache {c c' : Cache} {e : CacheEvent} (h : CacheStep c e c')
      (other : ∀ q, e = .store q → q ≠ 1 ∧ ∀ b < c.nblocks, q ≠ bitmapBlock b) :
      ServerStep c (.cache e) c'
  | reboot {c : Cache} : ServerStep c .reboot c.reboot

/-- What is free on the disk is free, and the disk has the super block. -/
structure Cache.Sound (c : Cache) : Prop where
  ready : c.Ready
  synced : c.Synced
  super : c.restart.nblocks = c.nblocks
  bits : ∀ b < c.nblocks, bitSet c.restart.view b → bitSet c.view b

theorem nblocks_congr (h : ∀ x, blockno x = 1 → InCache x → c'.view x = c.view x) :
    c'.nblocks = c.nblocks := by
  unfold Cache.nblocks sNblocks
  rw [Mem.read32_congr fun x hx hx' => h x ?_ ?_]
  all_goals unfold superAddr at hx hx'
  · unfold blockno blksize
    omega
  · unfold InCache disksize
    omega

theorem bitSet_congr (hc : c.Ready) (hb : b < c.nblocks) {m m' : Mem}
    (h : ∀ x, InCache x → blockno x = bitmapBlock b → m' x = m x) : bitSet m' b ↔ bitSet m b := by
  have hword : m'.read32 (bitmapWord b) = m.read32 (bitmapWord b) := by
    refine Mem.read32_congr fun x hx hx' => ?_
    have hin := bitmapWord_block hx hx'
    refine h x ((hc.inCache hb).of_block hin.1 hin.2) ?_
    rw [blockno_of_block hin.1 hin.2, blockno_bitmapWord]
  unfold bitSet
  rw [hword]

theorem Flushes.super (h : Flushes c c') (hs : c.restart.nblocks = c.nblocks)
    (hn : c'.nblocks = c.nblocks) : c'.restart.nblocks = c'.nblocks := by
  rcases h.blocks 1 with hsame | hnew
  · rw [nblocks_congr fun x hx hin => hsame x hin hx, hs, hn]
  · exact nblocks_congr fun x hx hin => hnew x hin hx

theorem Flushes.bits (h : Flushes c c') (hc : c.Ready) (hb : b < c.nblocks)
    (hset : bitSet c'.restart.view b) : bitSet c.restart.view b ∨ bitSet c'.view b := by
  rcases h.blocks (bitmapBlock b) with hsame | hnew
  · exact Or.inl ((bitSet_congr hc hb hsame).mp hset)
  · exact Or.inr ((bitSet_congr hc hb hnew).mp hset)

theorem reboot_disk (c : Cache) : c.reboot.disk = c.disk := rfl

theorem reboot_view (c : Cache) : c.reboot.view = c.restart.view := by
  have hin : ∀ q < 3, ∃ a, InCache a ∧ blockno a = q := by
    intro q hq
    refine ⟨blockAddr q, ?_, ?_⟩
    · unfold InCache blockAddr disksize
      omega
    · exact blockno_of_block (Nat.le_refl _) (by omega)
  obtain ⟨a, ha, ha1⟩ := hin 1 (by omega)
  obtain ⟨a', ha', ha2⟩ := hin 2 (by omega)
  have h1 := load_view (c := c.restart) ha rfl
  rw [ha1] at h1
  have h2 := load_view (c := c.restart.load 1) ha' (by
    rw [ha2, load_mapped_ne _ (by omega)]
    rfl)
  rw [ha2] at h2
  exact h2.trans h1

theorem restart_synced (c : Cache) : c.restart.Synced := fun x _ hm _ => by cases hm

/-- A server that starts from a disk, the first time or again, agrees with the disk: `fs_init` goes on
only where the super block has room for a bitmap and is not larger than the disk. -/
theorem boot_sound (hlt : 2 < c.restart.nblocks) (hfits : c.restart.nblocks ≤ disksize / blksize) :
    c.reboot.Sound := by
  have hview := reboot_view c
  have hn : c.reboot.nblocks = c.restart.nblocks := by
    unfold Cache.nblocks
    rw [hview]
  have hback : c.reboot.restart.view = c.restart.view := restart_view_congr (reboot_disk c)
  refine ⟨⟨?_, load_mapped _ 2, ?_, ?_⟩, ((restart_synced c).load 1).load 2, ?_, fun b _ hset => ?_⟩
  · exact load_mono _ 2 1 (load_mapped _ 1)
  · rw [hn]
    exact hlt
  · rw [hn]
    exact hfits
  · unfold Cache.nblocks
    rw [hback, hview]
  · rw [hview, ← hback]
    exact hset

/-- The server starts again with what is on the disk. -/
theorem Cache.Sound.reboot (h : c.Sound) : c.reboot.Sound := by
  apply boot_sound
  · rw [h.super]
    exact h.ready.bitmap_lt
  · rw [h.super]
    exact h.ready.fits

/-- What the other steps of the server have in common. -/
theorem Cache.Sound.of_flushes (h : c.Sound) (hf : Flushes c c') (hr : c'.Ready)
    (hn : c'.nblocks = c.nblocks)
    (hbits : ∀ b < c.nblocks, bitSet c.view b → bitSet c'.view b ∨ ¬ bitSet c'.restart.view b) :
    c'.Sound := by
  refine ⟨hr, hf.synced, hf.super h.super hn, fun b hb hset => ?_⟩
  rw [hn] at hb
  rcases hf.bits h.ready hb hset with hold | hnew
  · exact (hbits b hb (h.bits b hb hold)).resolve_right (not_not_intro hset)
  · exact hnew

theorem bitSet_restart (hc : c.Ready) (hb : b < c.nblocks) :
    bitSet c.restart.view b ↔ c.diskBit b := by
  have hword : c.restart.view.read32 (bitmapWord b) = c.disk.read32 (bitmapWord b - diskmap) := by
    refine Mem.read32_shift fun k hk => ?_
    have hin := bitmapWord_block (b := b) (x := bitmapWord b + k) (by omega) (by omega)
    have hle := diskmap_le_bitmapWord b
    rw [restart_view ((hc.inCache hb).of_block hin.1 hin.2)]
    exact congrArg c.disk (by omega)
  unfold bitSet Cache.diskBit
  rw [hword]

theorem BitmapStep.sound {e : BitmapCall} (h : BitmapStep c e c') (hc : c.Sound) : c'.Sound := by
  refine hc.of_flushes (h.flushes hc.synced) (h.ready hc.ready) (h.nblocks hc.ready) fun q hq hset => ?_
  have hn := h.nblocks hc.ready
  cases h with
  | alloc h =>
      obtain ⟨c₁, ⟨b, hrun, htook⟩ | ⟨hrun, -, hl⟩⟩ := allocBlock_cases hc.ready
      · rw [hrun] at h
        cases h
        by_cases hqb : q = b
        · subst hqb
          rw [bitSet_restart htook.ready (by rw [hn]; exact hq)]
          exact Or.inr htook.diskBit
        · exact Or.inl (htook.bits.mpr ⟨hset, hqb⟩)
      · rw [hrun] at h
        cases h
        rw [hl.view]
        exact Or.inl hset
  | free h => exact Or.inl ((freeBlock_bits h).mpr (Or.inl hset))

/-- A step of the cache leaves the super block and the bitmap as the server reads them. -/
theorem CacheStep.kept (h : CacheStep c e c') (hc : c.Ready)
    (other : ∀ q, e = .store q → q ≠ 1 ∧ ∀ b < c.nblocks, q ≠ bitmapBlock b) :
    c'.Ready ∧ c'.nblocks = c.nblocks ∧ ∀ b < c.nblocks, bitSet c'.view b ↔ bitSet c.view b := by
  have hsame : SameView c c' →
      c'.Ready ∧ c'.nblocks = c.nblocks ∧ ∀ b < c.nblocks, bitSet c'.view b ↔ bitSet c.view b := by
    intro hs
    refine ⟨hs.ready hc, ?_, fun b _ => by rw [hs.view]⟩
    unfold Cache.nblocks
    rw [hs.view]
  cases h with
  | touch h => exact hsame (touch_readIn h).1.toSameView
  | flush h => exact hsame (flushBlock_sameView h)
  | @store q m page hother =>
      obtain ⟨hsuper, hbitmap⟩ := other q rfl
      have hview : ∀ x, InCache x → blockno x ≠ q →
          Cache.view { c with mem := m, dirty := Function.update c.dirty q true } x = c.view x := by
        intro x hx hne
        unfold Cache.view
        simp only [hother x hx hne]
      have hn : Cache.nblocks { c with mem := m, dirty := Function.update c.dirty q true } = c.nblocks :=
        nblocks_congr fun x hx hin => hview x hin fun heq => hsuper (heq.symm.trans hx)
      refine ⟨⟨hc.super, hc.bitmap, ?_, ?_⟩, hn, fun b hb => ?_⟩
      · rw [hn]
        exact hc.bitmap_lt
      · rw [hn]
        exact hc.fits
      · exact bitSet_congr hc hb fun x hx hxb => hview x hx fun heq => hbitmap b hb (heq.symm.trans hxb)

theorem ServerStep.sound {e : ServerEvent} (h : ServerStep c e c') (hc : c.Sound) :
    c'.Sound ∧ c'.nblocks = c.nblocks := by
  cases h with
  | bitmap h => exact ⟨h.sound hc, h.nblocks hc.ready⟩
  | cache h other =>
      obtain ⟨hr, hn, hbits⟩ := h.kept hc.ready other
      exact ⟨hc.of_flushes (h.flushes hc.synced) hr hn fun b hb hset => Or.inl ((hbits b hb).mpr hset), hn⟩
  | reboot =>
      refine ⟨hc.reboot, ?_⟩
      rw [← hc.super]
      unfold Cache.nblocks
      rw [reboot_view c]

/-- Only `free_block` makes a block free, also when the server is started again. -/
theorem ServerStep.given {e : ServerEvent} (h : ServerStep c e c') (hc : c.Sound) (hb : b < c.nblocks)
    (hbefore : ¬ bitSet c.view b) (hafter : bitSet c'.view b) : e = .bitmap (.free b) := by
  cases h with
  | bitmap h => exact congrArg _ (h.given hc.ready hbefore hafter)
  | cache h other => exact absurd (((h.kept hc.ready other).2.2 b hb).mp hafter) hbefore
  | reboot =>
      rw [reboot_view c] at hafter
      exact absurd (hc.bits b hb hafter) hbefore

/-- The blocks are a pool also for a server that is started again and again. -/
theorem server_pool : Pool ServerStep Cache.Sound (fun c b => b < c.nblocks ∧ bitSet c.view b)
    (fun e b => e = .bitmap (.alloc (b : Nat))) fun e b => e = .bitmap (.free b) where
  keeps c e c' h hc := (h.sound hc).1
  taken := by
    rintro c e c' b h hc rfl
    cases h with
    | bitmap h =>
        have htook := h.taken hc.ready
        exact ⟨⟨htook.lt, htook.free⟩, fun hfree => (htook.bits.mp hfree.2).2 rfl⟩
  given := by
    rintro c e c' b h hc hbefore ⟨hb, hset⟩
    rw [(h.sound hc).2] at hb
    exact h.given hc hb (fun hset' => hbefore ⟨hb, hset'⟩) hset

theorem nblocks_of_run {es : List ServerEvent} (h : LabelledRun ServerStep c es c') (hc : c.Sound) :
    c'.nblocks = c.nblocks := by
  induction h with
  | nil c => rfl
  | cons hstep _ ih => exact (ih (hstep.sound hc).1).trans (hstep.sound hc).2

/-- In any run of calls of `alloc_block` and `free_block`, other accesses, stores and flushes, with the
server started again at any points of the run: a block that was handed out and not freed since is in
use for the server and on the disk, and it is not handed out again before it is freed. -/
theorem handed_out_across_reboots (hc : c.Sound) :
    (∀ es₁ es b c', LabelledRun ServerStep c (es₁ ++ .bitmap (.alloc (b : Nat)) :: es) c' →
      .bitmap (.free b) ∉ es → ¬ bitSet c'.view b ∧ ¬ bitSet c'.restart.view b) ∧
    ∀ es₁ es es₂ b c', LabelledRun ServerStep c
      (es₁ ++ .bitmap (.alloc (b : Nat)) :: es ++ .bitmap (.alloc (b : Nat)) :: es₂) c' →
        .bitmap (.free b) ∈ es := by
  refine ⟨fun es₁ es b c' hrun hno => ?_, fun es₁ es es₂ b c' hrun => ?_⟩
  · obtain ⟨c₁, hfront, hrest⟩ := hrun.split
    have hc₁ := hfront.inv _ server_pool.keeps hc
    cases hrest with
    | @cons _ c₂ _ _ _ hstep hrest =>
        have hc₂ := (hstep.sound hc₁).1
        obtain ⟨⟨hb, -⟩, htaken⟩ := server_pool.taken _ _ _ b hstep hc₁ rfl
        have hc' := hrest.inv _ server_pool.keeps hc₂
        have hb' : b < c'.nblocks := by
          rw [nblocks_of_run hrest hc₂, (hstep.sound hc₁).2]
          exact hb
        have hnot : ¬ bitSet c'.view b := by
          intro hset
          obtain ⟨e, hmem, rfl⟩ := server_pool.given_of_run hrest hc₂ htaken ⟨hb', hset⟩
          exact hno hmem
        exact ⟨hnot, fun hset => hnot (hc'.bits b hb' hset)⟩
  · obtain ⟨e, hmem, rfl⟩ := server_pool.given_between hrun hc rfl rfl
    exact hmem

theorem wideDisk_sound (w : BitVec 32) : (wideDisk w).Sound := by
  have hview : ∀ x, InCache x → (wideDisk w).restart.view x = (wideDisk w).view x := by
    intro x hx
    rw [restart_view hx]
    unfold Cache.view
    split
    · rfl
    · rfl
  refine ⟨wideDisk_ready w, wideDisk_synced w, nblocks_congr fun x _ hx => hview x hx, fun b hb hset => ?_⟩
  exact (bitSet_congr (wideDisk_ready w) hb fun x hx _ => hview x hx).mp hset

/-- A block is handed out, and the server is started again. -/
theorem handed_out_across_reboots_wide : ∃ (b : Nat) (c' : Cache),
    LabelledRun ServerStep (wideDisk 0xFFFFFFF0#32) [.bitmap (.alloc b), .reboot] c' ∧
      ¬ bitSet c'.view b := by
  have hready := wideDisk_ready 0xFFFFFFF0#32
  have hfour : bitSet (wideDisk 0xFFFFFFF0#32).view 4 := (wideDisk_bitSet (by omega)).mpr (by decide)
  obtain ⟨c₁, ⟨b, hrun, -⟩ | ⟨-, hnone, -⟩⟩ := allocBlock_cases hready
  · have hruns : LabelledRun ServerStep (wideDisk 0xFFFFFFF0#32)
        ([] ++ .bitmap (.alloc (b : Nat)) :: [.reboot]) c₁.reboot :=
      .cons (.bitmap (.alloc hrun)) (.cons .reboot (.nil _))
    refine ⟨b, c₁.reboot, hruns, ?_⟩
    exact ((handed_out_across_reboots (wideDisk_sound 0xFFFFFFF0#32)).1 [] _ b _ hruns (by simp)).1
  · refine absurd hfour (hnone 4 ?_)
    rw [wideDisk_nblocks]
    omega

end

end Jos.Fs
