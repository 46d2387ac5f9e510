import Jos.Fs.Failed
import Jos.Lib.Segments

/-!
# Paths as lists of names

`walk_path` scans, copies and descends in one loop. Here it is the fold of `dir_lookup` over the
names on the path, and what it finds is read from the directories as they are before the call.
`Reaches m names f` says that the names lead from the root to `f`. A path is the only one that leads
to its file, apart from its slashes.

Main result:
* `walkPath_resolves`: `walk_path` is the fold over the names, and slashes do not matter.
-/

namespace Jos.Fs

open Jos.Lib

/-- The names on a path. -/
def pathNames (path : List (BitVec 8)) : List (List (BitVec 8)) := segments slash path

/-- `dir_lookup` for one name after the other, from the file `f` of `dir` on. -/
def walkNames : Mem → Option Nat → Nat → List (List (BitVec 8)) → Option (Mem × Walk)
  | m, dir, f, [] => some (m, ⟨.ok f, dir, []⟩)
  | m, _, f, name :: names =>
      if maxnamelen ≤ name.length then some (m, ⟨.error (-eBadPath), none, []⟩)
      else if fType m f ≠ ftypeDir then some (m, ⟨.error (-eNotFound), none, []⟩)
      else do
        match ← dirLookup m f name with
        | (m, .error r) =>
            if r = -eNotFound ∧ names = [] then some (m, ⟨.error r, some f, name⟩)
            else some (m, ⟨.error r, none, []⟩)
        | (m, .ok g) => walkNames m (some f) g names

/-- What the names lead to from the file `f` of `dir` on, read from the directories. -/
def resolve (m : Mem) : Option Nat → Nat → List (List (BitVec 8)) → Walk
  | dir, f, [] => ⟨.ok f, dir, []⟩
  | _, f, name :: names =>
      if maxnamelen ≤ name.length then ⟨.error (-eBadPath), none, []⟩
      else if fType m f ≠ ftypeDir then ⟨.error (-eNotFound), none, []⟩
      else match lookupEntry m f name with
        | some e => resolve m (some f) (entryAt m f e) names
        | none => if names = [] then ⟨.error (-eNotFound), some f, name⟩
            else ⟨.error (-eNotFound), none, []⟩

/-- The blocks that the look-ups of the names need, for the holes of the directories. -/
def namesNeed (m : Mem) : Nat → List (List (BitVec 8)) → Nat
  | _, [] => 0
  | f, name :: names =>
      if maxnamelen ≤ name.length ∨ fType m f ≠ ftypeDir then 0
      else lookupNeed m f name + match lookupEntry m f name with
        | some e => namesNeed m (entryAt m f e) names
        | none => 0

/-- A name as it stands in a path. -/
structure PartOk (name : List (BitVec 8)) : Prop where
  ne_nil : name ≠ []
  no_null : 0#8 ∉ name

/-- The names lead from the root to `f`. -/
inductive Reaches (m : Mem) : List (List (BitVec 8)) → Nat → Prop
  | root : Reaches m [] sRoot
  | entry {names : List (List (BitVec 8))} {d e : Nat} {name : List (BitVec 8)}
      (h : Reaches m names d) (hdir : fType m d = ftypeDir) (hname : NameOk name)
      (he : lookupEntry m d name = some e) : Reaches m (names ++ [name]) (entryAt m d e)

section

variable {m m' m1 : Mem} {f g d e fuel : Nat} {dir : Option Nat}
  {name path path' : List (BitVec 8)} {names names' : List (List (BitVec 8))} {P : Nat → Prop}

/-! ## The loop -/

theorem pathNames_skipSlash (path : List (BitVec 8)) : pathNames (skipSlash path) = pathNames path :=
  segments_dropWhile slash path

theorem pathNames_cons (hne : path ≠ []) (hhead : path.head? ≠ some slash) : pathNames path =
    path.takeWhile (· ≠ slash) :: pathNames (skipSlash (path.dropWhile (· ≠ slash))) :=
  segments_eq_cons hne hhead

theorem pathNames_eq_nil (hhead : path.head? ≠ some slash) : pathNames path = [] ↔ path = [] := by
  constructor
  · intro h
    by_contra hne
    rw [pathNames_cons hne hhead] at h
    cases h
  · rintro rfl
    rfl

/-- The loop of `walk_path` takes the names from the path one by one. -/
theorem walkLoop_eq (hhead : path.head? ≠ some slash) (hfuel : path.length < fuel) :
    walkLoop fuel m dir f path = walkNames m dir f (pathNames path) := by
  induction fuel generalizing m dir f path with
  | zero => omega
  | succ fuel ih =>
      rw [walkLoop]
      by_cases hne : path = []
      · rw [if_pos hne, hne]
        rfl
      have hhead' := head_skipSlash (path.dropWhile (· ≠ slash))
      have hshorter : (skipSlash (path.dropWhile (· ≠ slash))).length < fuel := by
        have := rest_length_lt hne hhead
        omega
      rw [if_neg hne, pathNames_cons hne hhead, walkNames]
      dsimp only
      refine if_congr Iff.rfl rfl (if_congr Iff.rfl rfl ?_)
      cases dirLookup m f (path.takeWhile (· ≠ slash)) with
      | none => rfl
      | some res =>
          obtain ⟨m1, r | g⟩ := res
          · exact if_congr (and_congr_right' (pathNames_eq_nil hhead').symm) rfl rfl
          · exact ih hhead' hshorter

/-- `walk_path` depends only on the names. -/
theorem walkPath_eq (m : Mem) (path : List (BitVec 8)) :
    walkPath m path = walkNames m none sRoot (pathNames path) := by
  have hlen := skipSlash_length_le path
  rw [walkPath, walkLoop_eq (head_skipSlash path) (by omega), pathNames_skipSlash]

/-! ## Names of entries -/

/-- A directory `g` shows the same names in the same entries, with the same blocks for them. -/
structure SameNames (m m' : Mem) (g : Nat) : Prop where
  type : fType m' g = fType m g
  size : fSize m' g = fSize m g
  ptr : ∀ k < maxblocks, blockPtr m g k ≠ 0 → blockPtr m' g k = blockPtr m g k
  name : ∀ e < 16 * maxblocks, ∀ c < 128, fileByte m' g (256 * e + c) = fileByte m g (256 * e + c)

theorem SameNames.refl (m : Mem) (g : Nat) : SameNames m m g :=
  ⟨rfl, rfl, fun _ _ _ => rfl, fun _ _ _ _ => rfl⟩

theorem SameNames.trans (h : SameNames m m1 g) (h' : SameNames m1 m' g) : SameNames m m' g where
  type := h'.type.trans h.type
  size := h'.size.trans h.size
  ptr k hk hb := by
    have h1 := h.ptr k hk hb
    rw [h'.ptr k hk (by rw [h1]; exact hb), h1]
  name e he c hc := (h'.name e he c hc).trans (h.name e he c hc)

theorem SameFile.sameNames (h : SameFile m m' g) : SameNames m m' g where
  type := h.type
  size := h.size
  ptr k hk _ := h.ptr k hk
  name e he c hc := by
    simp only [maxblocks] at he
    exact h.byte _ (by simp only [maxfilesize]; omega)

theorem nameAt_congr_name (hname : NameOk name)
    (h : ∀ c < 128, fileByte m' g (256 * e + c) = fileByte m g (256 * e + c)) :
    nameAt m' g name e = nameAt m g name e := by
  have hlen := hname.length_lt
  simp only [maxnamelen] at hlen
  exact bytesAre_congr fun c hc => h c (by omega)

theorem SameNames.lookupEntry_eq (h : SameNames m m' g) (hsize : (fSize m g).toNat ≤ maxfilesize)
    (hname : NameOk name) : lookupEntry m' g name = lookupEntry m g name := by
  have hblocks : dirBlocks m' g = dirBlocks m g := by rw [dirBlocks, dirBlocks, h.size]
  have hle := dirBlocks_le hsize
  rw [lookupEntry, lookupEntry, hblocks]
  exact entryFrom_congr fun e he => nameAt_congr_name hname (h.name e (by omega))

theorem SameNames.entryAt_eq (h : SameNames m m' g) (hdir : fType m g = ftypeDir)
    (hsize : (fSize m g).toNat ≤ maxfilesize) (hname : NameOk name)
    (he : lookupEntry m g name = some e) : entryAt m' g e = entryAt m g e := by
  obtain ⟨hk, hb, _⟩ := lookupEntry_child hdir hsize hname he
  rw [entryAt, entryAt, h.ptr _ hk hb]

/-- Taking blocks for a file changes no name. -/
theorem Grows.sameNames {n : Nat} (h : Grows f m n m') (hw : Wf m) (hf : FileAt m f)
    (hg : FileAt m g) : SameNames m m' g := by
  refine ⟨h.type_eq hw hg, h.size_eq hw hg, fun k hk hb => h.blockPtr_keeps hw hg hk hb,
    fun e he c hc => ?_⟩
  simp only [maxblocks] at he
  have hi : 256 * e + c < maxfilesize := by
    simp only [maxfilesize]
    omega
  by_cases hin : InEntry m f g (256 * e + c)
  · -- The byte is byte `c` of the entry of `f`, where there is no block number.
    obtain ⟨_, k, _, _, j, _, hfj⟩ := hw.child_of_inEntry hf hg hi hin
    obtain ⟨hb, hlo, hhi⟩ := hin
    have hkeep := h.blockPtr_keeps hw hg (block_lt hi) hb
    have haddr : byteAddr m g (256 * e + c) = f + c := by
      simp only [byteAddr, blockAddr_eq] at hlo hhi hfj ⊢
      omega
    rw [fileByte, fileByte, byteAddr, hkeep, ← byteAddr, if_neg hb, if_neg hb, haddr]
    exact h.header_rest hw hf (by omega)
  · exact h.fileByte_eq hw hg hi hin

/-! ## The names that lead to a file -/

theorem Reaches.fileAt (h : Reaches m names f) (hds : DirsOk m) : FileAt m f := by
  induction h with
  | root => exact .root
  | entry _ hdir hname he ih =>
      exact ih.child (lookupEntry_child hdir (hds _ ih hdir).size_le hname he).2.2

theorem bytesAre_inj {b : Nat → BitVec 8} {name name' : List (BitVec 8)} (h : bytesAre b name = true)
    (h' : bytesAre b name' = true) (h0 : 0#8 ∉ name) (h0' : 0#8 ∉ name') : name = name' := by
  induction name generalizing b name' with
  | nil =>
      cases name' with
      | nil => rfl
      | cons c l =>
          simp only [bytesAre, decide_eq_true_eq, Bool.and_eq_true] at h h'
          rw [h'.1] at h
          exact absurd (h ▸ List.mem_cons_self) h0'
  | cons c l ih =>
      cases name' with
      | nil =>
          simp only [bytesAre, decide_eq_true_eq, Bool.and_eq_true] at h h'
          rw [h.1] at h'
          exact absurd (h' ▸ List.mem_cons_self) h0
      | cons c' l' =>
          simp only [bytesAre, decide_eq_true_eq, Bool.and_eq_true] at h h'
          rw [← h.1, ← h'.1, ih h.2 h'.2 (fun hm => h0 (List.mem_cons_of_mem _ hm))
            fun hm => h0' (List.mem_cons_of_mem _ hm)]

/-- An entry is in one place of one directory. -/
theorem Wf.entryAt_inj {d' e' : Nat} (hw : Wf m) (hd : FileAt m d) (hd' : FileAt m d')
    (hk : e / 16 < maxblocks) (hb : blockPtr m d (e / 16) ≠ 0)
    (hk' : e' / 16 < maxblocks) (hb' : blockPtr m d' (e' / 16) ≠ 0)
    (heq : entryAt m d e = entryAt m d' e') : d = d' ∧ e = e' := by
  have hown := owned_data hd hk hb
  have hown' := owned_data hd' hk' hb'
  have hsame : blockPtr m d (e / 16) = blockPtr m d' (e' / 16) := by
    simp only [entryAt, blockAddr_eq] at heq
    omega
  rw [hsame] at hown
  obtain ⟨rfl, hdiv⟩ := dataPlace_inj (hown.unique hown' hw)
  refine ⟨rfl, ?_⟩
  simp only [entryAt, blockAddr_eq, hsame] at heq
  omega

/-- The file whose `struct File` has a byte of an entry is the one of the entry. -/
theorem Wf.entry_of_inEntry {c : Nat} (hw : Wf m) (hf : FileAt m f) (hg : FileAt m g)
    (he : e < 16 * maxblocks) (hc : c < 256) (h : InEntry m f g (256 * e + c)) :
    blockPtr m g (e / 16) ≠ 0 ∧ f = entryAt m g e := by
  have hi : 256 * e + c < maxfilesize := by
    simp only [maxblocks, maxfilesize] at he ⊢
    omega
  obtain ⟨_, k, _, _, j, _, hfj⟩ := hw.child_of_inEntry hf hg hi h
  obtain ⟨hb, hlo, hhi⟩ := h
  have hdiv : (256 * e + c) / 4096 = e / 16 := by omega
  rw [hdiv] at hb
  refine ⟨hb, ?_⟩
  simp only [byteAddr, hdiv, entryAt, blockAddr_eq] at hlo hhi hfj ⊢
  omega

/-- A size is in no name. -/
theorem fileByte_name_size {c : Nat} (hw : Wf m) (hf : FileAt m f) (hg : FileAt m g)
    (he : e < 16 * maxblocks) (hc : c < 128) (v : BitVec 32) :
    fileByte (m.write32 (f + 128) v) g (256 * e + c) = fileByte m g (256 * e + c) := by
  have hun := unmoved_size hw hf v
  have hre := rewritten_size hw hf v
  by_cases hin : InEntry m f g (256 * e + c)
  · obtain ⟨hb, rfl⟩ := hw.entry_of_inEntry hf hg he (by omega) hin
    have hptr := hun.blockPtr_eq hg (i := e / 16) (by omega)
    have hold := fileByte_entry (m := m) (j := e % 16) hb (Nat.mod_lt _ (by decide)) (show c < 256 by omega)
    have hnew := fileByte_entry (m := m.write32 (entryAt m g e + 128) v) (j := e % 16)
      (by rw [hptr]; exact hb) (Nat.mod_lt _ (by decide)) (show c < 256 by omega)
    rw [Nat.div_add_mod] at hold hnew
    rw [hold, hnew, hptr]
    refine Mem.write32_of_disjoint _ _ ?_
    rw [entryAt]
    omega
  · refine hre.byte g _ hg ?_ hin fun _ => id
    simp only [maxblocks, maxfilesize] at he ⊢
    omega

/-- Only one list of names leads to a file. -/
theorem Reaches.names_unique (h : Reaches m names f) (h' : Reaches m names' f) (hw : Wf m)
    (hds : DirsOk m) : names = names' := by
  induction h generalizing names' with
  | root =>
      generalize hf : sRoot = f at h'
      cases h' with
      | root => rfl
      | entry h1 hdir hname he =>
          have hd := h1.fileAt hds
          obtain ⟨_, _, hchild⟩ := lookupEntry_child hdir (hds _ hd hdir).size_le hname he
          rw [← hf] at hchild
          exact absurd hchild (hw.child_ne_root hd)
  | @entry names d e name h0 hdir hname he ih =>
      have hd := h0.fileAt hds
      obtain ⟨hk, hb, hchild⟩ := lookupEntry_child hdir (hds _ hd hdir).size_le hname he
      generalize hf : entryAt m d e = f at h'
      cases h' with
      | root =>
          rw [hf] at hchild
          exact absurd hchild (hw.child_ne_root hd)
      | @entry names' d' e' name' h1 hdir' hname' he' =>
          have hd' := h1.fileAt hds
          obtain ⟨hk', hb', _⟩ := lookupEntry_child hdir' (hds _ hd' hdir').size_le hname' he'
          obtain ⟨rfl, rfl⟩ := hw.entryAt_inj hd hd' hk hb hk' hb' hf
          have hat : nameAt m d name e = true := List.find?_some he
          have hat' : nameAt m d name' e = true := List.find?_some he'
          rw [ih h1, bytesAre_inj hat hat' hname.no_null hname'.no_null]

/-- The names lead to one file. -/
theorem Reaches.unique (h : Reaches m names f) (h' : Reaches m names g) : f = g := by
  induction h generalizing g with
  | root =>
      generalize hn : ([] : List (List (BitVec 8))) = l at h'
      cases h' with
      | root => rfl
      | entry => exact absurd hn.symm (by simp)
  | @entry names d e name _ _ _ he ih =>
      generalize hn : names ++ [name] = l at h'
      cases h' with
      | root => exact absurd hn (by simp)
      | @entry names' d' e' name' h1 _ _ he' =>
          obtain ⟨rfl, hname⟩ := List.append_inj' hn rfl
          cases hname
          cases ih h1
          rw [he] at he'
          cases he'
          rfl

/-- A file keeps its path if the directories above it keep their names. -/
theorem Reaches.congr (h : Reaches m names f) (hds : DirsOk m)
    (hsame : ∀ d, FileAt m d → Relation.TransGen (Child m) d f → SameNames m m' d) :
    Reaches m' names f := by
  induction h with
  | root => exact .root
  | @entry names d e name h hdir hname he ih =>
      have hd := h.fileAt hds
      have hsize := (hds d hd hdir).size_le
      obtain ⟨_, _, hchild⟩ := lookupEntry_child hdir hsize hname he
      have hnames := hsame d hd (.single hchild)
      rw [← hnames.entryAt_eq hdir hsize hname he]
      refine .entry (ih fun d' hd' hbelow => hsame d' hd' (hbelow.tail hchild)) ?_ hname ?_
      · rw [hnames.type, hdir]
      · rw [hnames.lookupEntry_eq hsize hname, he]

theorem Reaches.split (h : Reaches m (names ++ names') f) : ∃ d, Reaches m names d := by
  generalize hl : names ++ names' = l at h
  induction h generalizing names' with
  | root => exact ⟨sRoot, (List.append_eq_nil_iff.mp hl).1 ▸ .root⟩
  | @entry l d e name h hdir hname he ih =>
      rcases List.eq_nil_or_concat names' with rfl | ⟨init, last, rfl⟩
      · rw [List.append_nil] at hl
        rw [hl]
        exact ⟨_, .entry h hdir hname he⟩
      · rw [List.concat_eq_append, ← List.append_assoc] at hl
        exact ih (List.append_inj' hl rfl).1

/-- The last step to a file. -/
theorem Reaches.last (h : Reaches m (names ++ [name]) f) : ∃ d e, Reaches m names d ∧
    fType m d = ftypeDir ∧ NameOk name ∧ lookupEntry m d name = some e ∧ f = entryAt m d e := by
  generalize hl : names ++ [name] = l at h
  cases h with
  | root => exact absurd hl (by simp)
  | @entry names' d e name' h hdir hname he =>
      obtain ⟨rfl, heq⟩ := List.append_inj' hl rfl
      cases heq
      exact ⟨d, e, h, hdir, hname, he, rfl⟩

/-- `resolve` finds the file that the names lead to. -/
theorem resolve_ok_iff (h : Reaches m names f) (hparts : ∀ name ∈ names', PartOk name) :
    (resolve m dir f names').file = .ok g ↔ Reaches m (names ++ names') g := by
  induction names' generalizing names f dir with
  | nil =>
      rw [resolve, List.append_nil]
      constructor
      · intro heq
        cases heq
        exact h
      · intro hg
        rw [h.unique hg]
  | cons name names' ih =>
      -- What the names lead to, they lead to through the entry of the first one.
      have hnext : ∀ {g}, Reaches m (names ++ name :: names') g → fType m f = ftypeDir ∧ NameOk name ∧
          ∃ e, lookupEntry m f name = some e := by
        intro g hg
        rw [List.append_cons] at hg
        obtain ⟨x, hx⟩ := hg.split
        obtain ⟨d, e, hd, hdir, hname, he, _⟩ := hx.last
        cases h.unique hd
        exact ⟨hdir, hname, e, he⟩
      have hpart := hparts name List.mem_cons_self
      rw [resolve]
      by_cases hlen : maxnamelen ≤ name.length
      · rw [if_pos hlen]
        refine iff_of_false (fun hc => by cases hc) fun hg => ?_
        have := (hnext hg).2.1.length_lt
        omega
      rw [if_neg hlen]
      have hname : NameOk name := ⟨hpart.ne_nil, hpart.no_null, Nat.lt_of_not_le hlen⟩
      by_cases hdir : fType m f ≠ ftypeDir
      · rw [if_pos hdir]
        exact iff_of_false (fun hc => by cases hc) fun hg => hdir (hnext hg).1
      rw [if_neg hdir]
      rw [not_not] at hdir
      cases he : lookupEntry m f name with
      | some e =>
          rw [List.append_cons]
          exact ih (.entry h hdir hname he) fun n hn => hparts n (List.mem_cons_of_mem _ hn)
      | none =>
          refine iff_of_false (fun hc => ?_) fun hg => ?_
          · simp only at hc
            split at hc
            · cases hc
            · cases hc
          · obtain ⟨_, _, e, he'⟩ := hnext hg
            rw [he] at he'
            cases he'

/-- Where the names stop if they lead to no file: with a directory, that is where the last name is
missing. -/
structure Stops (m : Mem) (names : List (List (BitVec 8))) (w : Walk) (r : Int) : Prop where
  code : r = -eBadPath ∨ r = -eNotFound
  dir : ∀ d, w.dir = some d → r = -eNotFound ∧ NameOk w.last ∧ ∃ init, names = init ++ [w.last] ∧
    Reaches m init d ∧ fType m d = ftypeDir ∧ lookupEntry m d w.last = none

theorem Stops.nowhere {r : Int} (hcode : r = -eBadPath ∨ r = -eNotFound) :
    Stops m names ⟨.error r, none, []⟩ r := ⟨hcode, fun _ hd => by cases hd⟩

theorem resolve_stops {r : Int} (h : Reaches m names f) (hparts : ∀ name ∈ names', PartOk name)
    (hr : (resolve m dir f names').file = .error r) :
    Stops m (names ++ names') (resolve m dir f names') r := by
  induction names' generalizing names f dir with
  | nil => cases hr
  | cons name names' ih =>
      have hpart := hparts name List.mem_cons_self
      rw [resolve] at hr ⊢
      by_cases hlen : maxnamelen ≤ name.length
      · rw [if_pos hlen] at hr ⊢
        cases hr
        exact .nowhere (Or.inl rfl)
      rw [if_neg hlen] at hr ⊢
      have hname : NameOk name := ⟨hpart.ne_nil, hpart.no_null, Nat.lt_of_not_le hlen⟩
      by_cases hdir : fType m f ≠ ftypeDir
      · rw [if_pos hdir] at hr ⊢
        cases hr
        exact .nowhere (Or.inr rfl)
      rw [if_neg hdir] at hr ⊢
      rw [not_not] at hdir
      cases he : lookupEntry m f name with
      | some e =>
          simp only [he] at hr ⊢
          rw [List.append_cons]
          exact ih (.entry h hdir hname he) (fun n hn => hparts n (List.mem_cons_of_mem _ hn)) hr
      | none =>
          simp only [he] at hr ⊢
          by_cases hnil : names' = []
          · rw [if_pos hnil] at hr ⊢
            cases hr
            refine ⟨Or.inr rfl, fun d hd => ?_⟩
            cases hd
            rw [hnil]
            exact ⟨rfl, hname, names, rfl, h, hdir, he⟩
          · rw [if_neg hnil] at hr ⊢
            cases hr
            exact .nowhere (Or.inr rfl)

/-- The result is read from the types and the names. -/
theorem resolve_congr (hds : DirsOk m) (hf : FileAt m f) (hparts : ∀ name ∈ names, PartOk name)
    (h : ∀ x, Relation.ReflTransGen (Child m) f x → SameNames m m' x) :
    resolve m' dir f names = resolve m dir f names := by
  induction names generalizing dir f with
  | nil => rfl
  | cons name names ih =>
      have hself := h f .refl
      have hpart := hparts name List.mem_cons_self
      rw [resolve, resolve, hself.type]
      by_cases hlen : maxnamelen ≤ name.length
      · rw [if_pos hlen, if_pos hlen]
      by_cases hdir : fType m f ≠ ftypeDir
      · rw [if_neg hlen, if_neg hlen, if_pos hdir, if_pos hdir]
      rw [if_neg hlen, if_neg hlen, if_neg hdir, if_neg hdir]
      rw [not_not] at hdir
      have hname : NameOk name := ⟨hpart.ne_nil, hpart.no_null, Nat.lt_of_not_le hlen⟩
      have hsize := (hds f hf hdir).size_le
      rw [hself.lookupEntry_eq hsize hname]
      cases he : lookupEntry m f name with
      | none => rfl
      | some e =>
          obtain ⟨_, _, hchild⟩ := lookupEntry_child hdir hsize hname he
          simp only [hself.entryAt_eq hdir hsize hname he]
          exact ih (hf.child hchild) (fun n hn => hparts n (List.mem_cons_of_mem _ hn))
            fun x hx => h x (.head hchild hx)

theorem namesNeed_congr (hds : DirsOk m) (hf : FileAt m f) (hparts : ∀ name ∈ names, PartOk name)
    (h : ∀ x, Relation.ReflTransGen (Child m) f x → SameFile m m' x) :
    namesNeed m' f names = namesNeed m f names := by
  induction names generalizing f with
  | nil => rfl
  | cons name names ih =>
      have hself := h f .refl
      have hpart := hparts name List.mem_cons_self
      rw [namesNeed, namesNeed, hself.type]
      by_cases hstop : maxnamelen ≤ name.length ∨ fType m f ≠ ftypeDir
      · rw [if_pos hstop, if_pos hstop]
      rw [if_neg hstop, if_neg hstop]
      simp only [not_or, not_not] at hstop
      obtain ⟨hlen, hdir⟩ := hstop
      have hname : NameOk name := ⟨hpart.ne_nil, hpart.no_null, Nat.lt_of_not_le hlen⟩
      have hsize := (hds f hf hdir).size_le
      rw [hself.lookupNeed_eq hsize hname, hself.lookupEntry_eq hsize hname]
      cases he : lookupEntry m f name with
      | none => rfl
      | some e =>
          obtain ⟨_, _, hchild⟩ := lookupEntry_child hdir hsize hname he
          simp only [hself.sameNames.entryAt_eq hdir hsize hname he]
          rw [ih (hf.child hchild) (fun n hn => hparts n (List.mem_cons_of_mem _ hn))
            fun x hx => h x (.head hchild hx)]

/-- Paths lead to the same files if all directories keep their names. -/
theorem reaches_iff (hds : DirsOk m) (h : ∀ g, FileAt m g → SameNames m m' g) :
    Reaches m' names f ↔ Reaches m names f := by
  refine ⟨fun hr => ?_, fun hr => hr.congr hds fun d hd _ => h d hd⟩
  induction hr with
  | root => exact .root
  | @entry names d e name _ hdir hname he ih =>
      have hd := ih.fileAt hds
      have hnames := h d hd
      rw [hnames.type] at hdir
      have hsize := (hds d hd hdir).size_le
      rw [hnames.lookupEntry_eq hsize hname] at he
      rw [hnames.entryAt_eq hdir hsize hname he]
      exact .entry ih hdir hname he

/-! ## The whole walk -/

/-- Holes of directories in `P` have been filled. -/
def Filled (P : Nat → Prop) : Mem → Mem → Prop := Relation.ReflTransGen fun m m' =>
  ∃ d n, P d ∧ FileAt m d ∧ fType m d = ftypeDir ∧ Grows d m n m'

theorem Grows.filled {n : Nat} (h : Grows d m n m') (hP : P d) (hd : FileAt m d)
    (hdir : fType m d = ftypeDir) : Filled P m m' := .single ⟨d, n, hP, hd, hdir, h⟩

theorem Filled.trans (h : Filled P m m1) (h' : Filled P m1 m') : Filled P m m' :=
  Relation.ReflTransGen.trans h h'

theorem Filled.wf (h : Filled P m m') (hw : Wf m) : Wf m' := by
  induction h with
  | refl => exact hw
  | tail _ hstep ih =>
      obtain ⟨_, _, _, _, _, hgrow⟩ := hstep
      exact hgrow.wf ih

theorem Filled.sameNames (h : Filled P m m') (hw : Wf m) (hg : FileAt m g) :
    FileAt m' g ∧ SameNames m m' g := by
  induction h with
  | refl => exact ⟨hg, .refl _ g⟩
  | tail h hstep ih =>
      obtain ⟨_, _, _, hd, _, hgrow⟩ := hstep
      have hw1 := Filled.wf h hw
      exact ⟨hgrow.fileAt hw1 ih.1, ih.2.trans (hgrow.sameNames hw1 hd ih.1)⟩

/-- What a walk leaves. -/
structure WalkDone (P : Nat → Prop) (m m' : Mem) (w : Walk) : Prop where
  filled : Filled P m m'
  last : ∀ r d, w.file = .error r → w.dir = some d → FileAt m' d ∧ fType m' d = ftypeDir ∧
    Present m' d 0 (dirBlocks m' d)

theorem WalkDone.stop {r : Int} {last : List (BitVec 8)} : WalkDone P m m ⟨.error r, none, last⟩ :=
  ⟨.refl, fun _ _ _ hd => by cases hd⟩

/-- The fold of `dir_lookup`, on a disk that has the blocks for the holes of the directories. Only
directories on the way get blocks. -/
theorem walkNames_exact (hw : Wf m) (hds : DirsOk m) (hr : Reaches m names f)
    (hparts : ∀ name ∈ names', PartOk name)
    (hP : ∀ l name l' d, names' = l ++ name :: l' → Reaches m (names ++ l) d → P d) :
    ((freeBlocks m).length < namesNeed m f names' ∧ walkNames m dir f names' = none) ∨
      namesNeed m f names' ≤ (freeBlocks m).length ∧
        ∃ m', walkNames m dir f names' = some (m', resolve m dir f names') ∧
          WalkDone P m m' (resolve m dir f names') := by
  have hf := hr.fileAt hds
  induction names' generalizing m dir f names with
  | nil => exact Or.inr ⟨Nat.zero_le _, m, rfl, .refl, fun _ _ hr => by cases hr⟩
  | cons name names' ih =>
      have hpart := hparts name List.mem_cons_self
      rw [walkNames, resolve, namesNeed]
      by_cases hlen : maxnamelen ≤ name.length
      · rw [if_pos hlen, if_pos hlen, if_pos (Or.inl hlen)]
        exact Or.inr ⟨Nat.zero_le _, m, rfl, .stop⟩
      by_cases hdir : fType m f ≠ ftypeDir
      · rw [if_neg hlen, if_neg hlen, if_pos hdir, if_pos hdir, if_pos (Or.inr hdir)]
        exact Or.inr ⟨Nat.zero_le _, m, rfl, .stop⟩
      rw [if_neg hlen, if_neg hlen, if_neg hdir, if_neg hdir,
        if_neg (by rintro (h | h) <;> contradiction)]
      rw [not_not] at hdir
      have hname : NameOk name := ⟨hpart.ne_nil, hpart.no_null, Nat.lt_of_not_le hlen⟩
      have hd := hds f hf hdir
      rcases dirLookup_exact hw hd hname with ⟨hfull, hnone⟩ | ⟨m1, hrun, hsearched⟩
      · rw [hnone]
        exact Or.inl ⟨by omega, rfl⟩
      have hgrow : Grows f m (lookupNeed m f name) m1 := hsearched.grows
      have hfree := hgrow.freeBlocks_length hw
      have hw1 := hgrow.wf hw
      have hPf : P f := hP [] name names' f rfl (by rw [List.append_nil]; exact hr)
      have hfilled := hgrow.filled hPf hf hdir
      rw [hrun]
      simp only [Option.bind_eq_bind, Option.bind_some]
      cases he : lookupEntry m f name with
      | none =>
          simp only [searchResult]
          by_cases hnil : names' = []
          · rw [if_pos ⟨trivial, hnil⟩, if_pos hnil]
            refine Or.inr ⟨by omega, m1, rfl, hfilled, fun r d _ hd => ?_⟩
            cases hd
            have hblocks : dirBlocks m1 f = lookupEnd m f name := by
              rw [lookupEnd, he, searchEnd, dirBlocks, dirBlocks, hgrow.size_eq hw hf]
            rw [hblocks]
            exact ⟨hgrow.fileAt hw hf, (hgrow.type_eq hw hf).trans hdir, hsearched.present⟩
          · rw [if_neg fun hc => hnil hc.2, if_neg hnil]
            exact Or.inr ⟨by omega, m1, rfl, hfilled, fun _ _ _ hd => by cases hd⟩
      | some e =>
          obtain ⟨hi, hb, hchild⟩ := lookupEntry_child hdir hd.size_le hname he
          have hentry : entryAt m1 f e = entryAt m f e := by
            rw [entryAt, entryAt, hgrow.blockPtr_keeps hw hf hi hb]
          have hg := hf.child hchild
          have hrg : Reaches m (names ++ [name]) (entryAt m f e) := .entry hr hdir hname he
          have hparts' : ∀ n ∈ names', PartOk n := fun n hn => hparts n (List.mem_cons_of_mem _ hn)
          -- The files below the entry are the same after the look-up.
          have hbelow : ∀ x, Relation.ReflTransGen (Child m) (entryAt m f e) x → SameFile m m1 x := by
            intro x hx
            obtain ⟨hxf, hnot⟩ := hw.below_other hf (Relation.TransGen.head' hchild hx)
            exact hgrow.sameFile hw hf (hg.descendant hx) hxf hnot
          have hneed := namesNeed_congr hds hg hparts' hbelow
          have hres : resolve m1 (some f) (entryAt m f e) names' =
              resolve m (some f) (entryAt m f e) names' :=
            resolve_congr hds hg hparts' fun x hx => (hbelow x hx).sameNames
          have hiff : ∀ {l d}, Reaches m1 l d ↔ Reaches m l d :=
            reaches_iff hds fun x hx => hgrow.sameNames hw hf hx
          simp only [searchResult, hentry]
          rcases @ih m1 (entryAt m f e) (some f) _ hw1 (hds.grows hw hgrow) (hiff.mpr hrg) hparts'
              (fun l n l' d hl hd => hP (name :: l) n l' d (by rw [hl]; rfl) (by
                rw [List.append_cons]
                exact hiff.mp hd)) (hgrow.fileAt hw hg) with
            ⟨hfull, hnone⟩ | ⟨hroom, m2, hrun2, hdone⟩
          · exact Or.inl ⟨by omega, hnone⟩
          · rw [hres] at hrun2 hdone
            exact Or.inr ⟨by omega, m2, hrun2, hfilled.trans hdone.filled, hdone.last⟩

/-! ## Paths -/

theorem pathNames_parts (h0 : 0#8 ∉ path) : ∀ name ∈ pathNames path, PartOk name := by
  intro name hname
  obtain ⟨hne, hsub⟩ := mem_segments hname
  exact ⟨hne, fun hmem => h0 (hsub hmem)⟩

theorem walkPath_congr (h : pathNames path' = pathNames path) : walkPath m path' = walkPath m path := by
  rw [walkPath_eq, walkPath_eq, h]

/-- On a disk that has the blocks for the holes of the directories on the way, `walk_path` gives what
the names of the path lead to, one after the other, and slashes do not matter otherwise. -/
theorem walkPath_resolves (hs : Sound m) (h0 : 0#8 ∉ path)
    (hroom : namesNeed m sRoot (pathNames path) ≤ (freeBlocks m).length) :
    (∃ m', walkPath m path = some (m', resolve m none sRoot (pathNames path))) ∧
    walkPath m (slash :: path) = walkPath m path ∧ walkPath m (path ++ [slash]) = walkPath m path ∧
    ∀ l l', path = l ++ slash :: l' → walkPath m (l ++ slash :: slash :: l') = walkPath m path := by
  refine ⟨?_, walkPath_congr (segments_cons slash path), walkPath_congr (segments_concat slash path),
    fun l l' hpath => walkPath_congr ?_⟩
  · rcases @walkNames_exact m sRoot none [] (pathNames path) (fun _ => True) hs.wf hs.dirsOk .root
        (pathNames_parts h0) fun _ _ _ _ _ _ => trivial with
      ⟨hfull, _⟩ | ⟨_, m', hrun, _⟩
    · omega
    · exact ⟨m', (walkPath_eq m path).trans hrun⟩
  · rw [hpath, pathNames, pathNames, segments_append, segments_append, segments_cons]

end

/-- The path `//a/`. -/
theorem walkPath_resolves_small : ∃ m', walkPath smallDisk [slash, slash, 97#8, slash] =
    some (m', resolve smallDisk none sRoot [[97#8]]) :=
  (@walkPath_resolves smallDisk [slash, slash, 97#8, slash] smallDisk_sound (by decide)
    (by decide +kernel)).1

end Jos.Fs
