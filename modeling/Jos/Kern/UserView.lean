import Jos.Kern.Machine
import Jos.Kern.Trap

/-!
# The memory that an environment sees

The memory of an environment by virtual addresses, through its page tables. Stores of the kernel to a
page that the environment may write are stores to that memory, as far as the page goes; other pages
may be mapped to the same frame. `page_fault_handler` leaves the words of the `struct UTrapframe` on
the exception stack.
-/

namespace Jos.Kern

open Jos.Lib Kernel

/-- The byte that the environment with the page directory in frame `d` finds at an address. -/
def userMem (s : Kernel) (d : Nat) : Mem := fun a => s.mem (physAddr s d (BitVec.ofNat 32 a))

/-- Consecutive words from `a` on. -/
def writeWords (m : Mem) (a : Nat) : List (BitVec 32) → Mem
  | [] => m
  | w :: ws => writeWords (m.write32 a w) (a + 4) ws

section

variable {m m' : Mem} {a x : Nat}

theorem writeWords_of_disjoint (l : List (BitVec 32)) (h : x < a ∨ a + 4 * l.length ≤ x) :
    writeWords m a l x = m x := by
  induction l generalizing m a with
  | nil => rfl
  | cons w l ih =>
      rw [List.length_cons] at h
      rw [writeWords, ih (by omega), Mem.write32_of_disjoint _ _ (by omega)]

theorem read32_writeWords (l : List (BitVec 32)) {k : Nat} (hk : k < l.length) :
    (writeWords m a l).read32 (a + 4 * k) = l[k] := by
  induction l generalizing m a k with
  | nil => cases hk
  | cons w l ih =>
      cases k with
      | zero =>
          have hread : (writeWords (m.write32 a w) (a + 4) l).read32 a = (m.write32 a w).read32 a :=
            Mem.read32_congr fun x _ _ => writeWords_of_disjoint l (Or.inl (by omega))
          show (writeWords (m.write32 a w) (a + 4) l).read32 a = w
          rw [hread, Mem.read32_write32_self]
      | succ k =>
          rw [writeWords, show a + 4 * (k + 1) = a + 4 + 4 * k by omega, List.getElem_cons_succ]
          exact ih (Nat.lt_of_succ_lt_succ hk)

/-- What is at `x` afterwards depends only on what was there. -/
theorem writeWords_congr (l : List (BitVec 32)) (h : m x = m' x) :
    writeWords m a l x = writeWords m' a l x := by
  induction l generalizing m m' a with
  | nil => exact h
  | cons w l ih =>
      refine ih ?_
      simp only [Mem.write32, h]

end

section

variable {R : Nat → Prop} {s s' : Kernel} {e cur : EnvIx} {d n i a : Nat} {va : BitVec 32}

/-- Stores of bytes in the page of `va`. -/
theorem Writing.storeByte_userMem {c : BitVec 8} (h : Writing R e d va n s) (hi : i < n)
    (hs : Kern.storeByte s d (va + BitVec.ofNat 32 i) c = some s') (ha : a < 2 ^ 32)
    (hpage : a / 4096 = (va + BitVec.ofNat 32 i).toNat / 4096) :
    userMem s' d a = Function.update (userMem s d) (va + BitVec.ofNat 32 i).toNat c a := by
  obtain ⟨h', _, _, hpte⟩ := h.storeByte hi hs
  have hnat : (BitVec.ofNat 32 a).toNat = a := by
    rw [BitVec.toNat_ofNat]
    exact Nat.mod_eq_of_lt ha
  have hp : userWrite &&& pteP = pteP := by decide
  have hpg : (va + BitVec.ofNat 32 i).toNat / 4096 = (BitVec.ofNat 32 a).toNat / 4096 := by
    rw [hnat, hpage]
  have hw := h.grants i hi
  have hwa := (x86Grants.congr_page hpg).mp hw
  have hwa' := (x86Grants.congr_page hpg).mp (h'.grants i hi)
  have hdn := (h.inv.pages.target_lt (k := .pgdir e) h.dir).1
  have hlow := h.inv.pages.shape.lt_utop_of_write h.dir hdn hw
  have hlowa := h.inv.pages.shape.lt_utop_of_write h.dir hdn hwa
  obtain ⟨f, hf, hphys⟩ := h.inv.pages.physAddr_eq h.dir hlow hp hw
  obtain ⟨g, hg, hphysa⟩ := h.inv.pages.physAddr_eq h.dir hlowa hp hwa
  obtain ⟨g', hg', hphysa'⟩ := h'.inv.pages.physAddr_eq h'.dir hlowa hp hwa'
  -- All three are the frame of the page.
  have hslot : slotOf e (va + BitVec.ofNat 32 i) hlow = slotOf e (BitVec.ofNat 32 a) hlowa := by
    obtain ⟨h1, h2⟩ := same_page hpg
    simp only [slotOf, h1, h2]
  rw [hpte, hg] at hg'
  rw [hslot, hg] at hf
  cases hg'
  cases hf
  rw [Kern.storeByte, if_pos (hw.mono (by decide))] at hs
  cases hs
  rw [userMem, hphysa']
  show Function.update s.mem _ c _ = _
  rw [hphys, pgoff_eq, pgoff_eq, hnat]
  by_cases hax : a = (va + BitVec.ofNat 32 i).toNat
  · rw [← hax, Function.update_self, Function.update_self]
  · have hmod : a % 4096 ≠ (va + BitVec.ofNat 32 i).toNat % 4096 := by omega
    rw [Function.update_of_ne hax, Function.update_of_ne (by omega), userMem, hphysa, pgoff_eq, hnat]

/-- A byte of a half of a word. -/
theorem extract_half (v : BitVec 32) {i j : Nat} (hj : j + 8 ≤ 16) :
    (v.extractLsb' i 16).extractLsb' j 8 = v.extractLsb' (i + j) 8 := by
  ext k hk
  simp only [BitVec.getElem_extractLsb', BitVec.getLsbD_extractLsb']
  rw [decide_eq_true (show j + k < 16 by omega), Bool.true_and, Nat.add_assoc]

/-- A store of a word that does not cross a page. -/
theorem Writing.store32_userMem {v : BitVec 32} {b : Nat} (h : Writing R e d va n s) (hi : i + 3 < n)
    (hs : Kern.store32 s d (va + BitVec.ofNat 32 i) v = some s') (hb : va.toNat + i = b)
    (hone : b / 4096 = (b + 3) / 4096) (htop : b + 3 < 2 ^ 32) (hpage : a / 4096 = b / 4096) :
    userMem s' d a = (userMem s d).write32 b v a := by
  have hnat : ∀ k ≤ 3, (va + BitVec.ofNat 32 (i + k)).toNat = b + k := by
    intro k hk
    rw [BitVec.toNat_add, BitVec.toNat_ofNat]
    omega
  have ha : a < 2 ^ 32 := by omega
  simp only [Kern.store32, Kern.store16, Option.bind_eq_bind, Option.bind_eq_some_iff] at hs
  obtain ⟨s2, ⟨s1, hs1, hs2⟩, s3, hs3, hs4⟩ := hs
  rw [Writing.add_ofNat va i 1] at hs2
  rw [Writing.add_ofNat va i 2] at hs3
  rw [Writing.add_ofNat va i 2, Writing.add_ofNat va (i + 2) 1] at hs4
  obtain ⟨h1, _, _⟩ := h.storeByte (by omega) hs1
  obtain ⟨h2, _, _⟩ := h1.storeByte (by omega) hs2
  obtain ⟨h3, _, _⟩ := h2.storeByte (by omega) hs3
  have n0 := hnat 0 (by omega)
  have n1 := hnat 1 (by omega)
  have n2 := hnat 2 (by omega)
  have n3 := hnat 3 (by omega)
  simp only [Nat.add_zero] at n0
  rw [h3.storeByte_userMem hi hs4 ha (by omega), n3]
  by_cases ha3 : a = b + 3
  · subst ha3
    rw [Function.update_self, extract_half v (by omega)]
    simp [Mem.write32]
  rw [Function.update_of_ne ha3, h2.storeByte_userMem (by omega) hs3 ha (by omega), n2]
  by_cases ha2 : a = b + 2
  · subst ha2
    rw [Function.update_self, extract_half v (by omega)]
    simp [Mem.write32]
  rw [Function.update_of_ne ha2, h1.storeByte_userMem (by omega) hs2 ha (by omega), n1]
  by_cases ha1 : a = b + 1
  · subst ha1
    rw [Function.update_self, extract_half v (by omega)]
    simp [Mem.write32]
  rw [Function.update_of_ne ha1, h.storeByte_userMem (by omega) hs1 ha (by omega), n0]
  by_cases ha0 : a = b
  · subst ha0
    rw [Function.update_self, extract_half v (by omega)]
    simp [Mem.write32]
  rw [Function.update_of_ne ha0, Mem.write32_of_disjoint _ _ (by omega)]

/-- Words in one page. -/
theorem Writing.storeWords_userMem (l : List (BitVec 32)) {b : Nat} (h : Writing R e d va n s)
    (hn : i + 4 * l.length ≤ n) (hs : storeWords s d (va + BitVec.ofNat 32 i) l = some s')
    (hb : va.toNat + i = b) (hpage : a / 4096 = b / 4096)
    (hone : ∀ x, b ≤ x → x < b + 4 * l.length → x / 4096 = b / 4096)
    (htop : b + 4 * l.length ≤ 2 ^ 32) : userMem s' d a = writeWords (userMem s d) b l a ∧
      s'.envs = s.envs := by
  induction l generalizing s i b with
  | nil =>
      cases hs
      exact ⟨rfl, rfl⟩
  | cons w l ih =>
      simp only [storeWords, Option.bind_eq_bind, Option.bind_eq_some_iff] at hs
      obtain ⟨s1, hs1, hs2⟩ := hs
      simp only [List.length_cons] at hn hone htop
      rw [Writing.add_ofNat va i 4] at hs2
      obtain ⟨h1, henvs, _⟩ := h.store32 (by omega) hs1
      have hone3 := hone (b + 3) (by omega) (by omega)
      have hword := h.store32_userMem (by omega) hs1 hb (by omega) (by omega) hpage
      cases l with
      | nil =>
          cases hs2
          exact ⟨hword, henvs⟩
      | cons w' l =>
          have hone4 := hone (b + 4) (by omega) (by simp only [List.length_cons]; omega)
          obtain ⟨hmem, henvs'⟩ := ih (b := b + 4) h1 (by omega) hs2 (by omega) (by omega)
            (fun x hx hx' => by rw [hone x (by omega) (by omega), hone4]) (by omega)
          refine ⟨?_, henvs'.trans henvs⟩
          rw [hmem]
          exact writeWords_congr _ hword

/-- What `page_fault_handler` leaves to an environment whose frame fits in the page of the exception
stack: the frame in its memory, and `eip` and `esp` for the upcall. -/
theorem pageFaultHandler_userMem {tf : Trapframe} {faultVa : BitVec 32} (h : Inv R s)
    (hd : (s.envs cur).envPgdir = some d)
    (hrun : pageFaultHandler s cur tf faultVa = some (s', .run))
    (hfit : uxstacktop.toNat - 4096 ≤ (utrapframeVa tf).toNat ∧
      (utrapframeVa tf).toNat + 52 ≤ uxstacktop.toNat) :
    (∀ a, uxstacktop.toNat - 4096 ≤ a → a < uxstacktop.toNat → userMem s' d a =
      writeWords (userMem s d) (utrapframeVa tf).toNat (utrapframe tf faultVa) a) ∧
    (s'.envs cur).envTf = { (s.envs cur).envTf with
      tfEip := (s.envs cur).envPgfaultUpcall, tfEsp := utrapframeVa tf } := by
  have hux : uxstacktop.toNat = 4005560320 := rfl
  have hdn := (h.pages.target_lt (k := .pgdir cur) hd).1
  simp only [pageFaultHandler] at hrun
  split at hrun
  swap
  · simp only [Option.bind_eq_bind, Option.bind_eq_some_iff] at hrun
    obtain ⟨_, _, hend⟩ := hrun
    cases hend
  simp only [Option.bind_eq_bind, Option.bind_eq_some_iff] at hrun
  obtain ⟨⟨s1, destroyed⟩, hassert, hrun⟩ := hrun
  simp only at hrun
  split at hrun
  · cases hrun
  simp only [Option.bind_eq_some_iff] at hrun
  obtain ⟨d', hd', s2, hstore, hend⟩ := hrun
  rename_i hdes
  have hok : s1 = s ∧ userMemCheck s cur (utrapframeVa tf) utrapframeSize (pteP ||| pteW ||| pteU) =
      some (.ok ()) := by
    rcases userMemAssert_cases hassert with ⟨hs, _, hok⟩ | ⟨_, hgone⟩
    · exact ⟨hs, hok⟩
    · rw [envDestroy, if_neg (by simp)] at hgone
      simp only [Option.bind_eq_bind, Option.bind_eq_some_iff, decide_true] at hgone
      obtain ⟨_, _, hflag⟩ := hgone
      cases hflag
      exact absurd rfl hdes
  obtain ⟨rfl, hcheck⟩ := hok
  rw [hd] at hd'
  cases hd'
  have hwriting : Writing R cur d (utrapframeVa tf) 52 s1 := by
    refine ⟨h, hd, fun i hi => ?_⟩
    rcases h.pages.shape.userMemCheck (utrapframeVa tf) utrapframeSize (pteP ||| pteW ||| pteU) hd hdn with
      ⟨_, _, hall⟩ | ⟨⟨x, hbad⟩, _⟩
    · have hnat : (utrapframeVa tf + BitVec.ofNat 32 i).toNat = (utrapframeVa tf).toNat + i := by
        rw [BitVec.toNat_add, BitVec.toNat_ofNat]
        omega
      have hlen : (utrapframeVa tf + utrapframeSize).toNat = (utrapframeVa tf).toNat + 52 := by
        rw [BitVec.toNat_add, utrapframeSize, BitVec.toNat_ofNat]
        omega
      have hpass := hall ((utrapframeVa tf).toNat / 4096) (Nat.le_refl _) (by
        rw [checkEnd, hlen]
        omega)
      have hpg : (pageVa ((utrapframeVa tf).toNat / 4096)).toNat / 4096 =
          (utrapframeVa tf + BitVec.ofNat 32 i).toNat / 4096 := by
        rw [pageVa_toNat (by omega), hnat]
        omega
      have hu : pdx (utrapframeVa tf + BitVec.ofNat 32 i) ≠ pdxUvpt := by
        rw [pdx_eq, hnat]
        simp only [pdxUvpt]
        omega
      exact h.pages.shape.x86Grants_of_passes hd hu ((PagePasses.congr_page hpg).mp hpass)
    · rw [hbad] at hcheck
      cases hcheck
  have hzero : utrapframeVa tf + BitVec.ofNat 32 0 = utrapframeVa tf := BitVec.add_zero _
  rw [← hzero] at hstore
  have hlen : (utrapframe tf faultVa).length = 13 := rfl
  have hwords : ∀ a, uxstacktop.toNat - 4096 ≤ a → a < uxstacktop.toNat → userMem s2 d a =
      writeWords (userMem s1 d) (utrapframeVa tf).toNat (utrapframe tf faultVa) a ∧
        s2.envs = s1.envs := by
    intro a ha ha'
    exact hwriting.storeWords_userMem _ (by omega) hstore (Nat.add_zero _) (by omega)
      (fun x hx hx' => by omega) (by omega)
  cases hend
  refine ⟨fun a ha ha' => (hwords a ha ha').1, ?_⟩
  obtain ⟨_, henvs⟩ := hwords (utrapframeVa tf).toNat (by omega) (by omega)
  rw [setEnv_self, henvs]

end

end Jos.Kern
