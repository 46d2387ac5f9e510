import Mathlib.Data.Nat.Basic
import Mathlib.Tactic.Common

/-!
# Byte-addressed memory

A memory is a function from addresses to bytes. Words of 32 bits are stored with the
least significant byte first. The lemmas say what a read returns after a write to the
same place, and that it does not see a write to a disjoint range; all side conditions
are linear inequalities between addresses.
-/

namespace Jos.Lib

/-- A memory: the byte stored at each address. -/
abbrev Mem := Nat → BitVec 8

namespace Mem

/-- The 32-bit word stored at the addresses `a` to `a + 3`. -/
def read32 (m : Mem) (a : Nat) : BitVec 32 := m (a + 3) ++ m (a + 2) ++ m (a + 1) ++ m a

/-- Store the word `v` at the addresses `a` to `a + 3`. -/
def write32 (m : Mem) (a : Nat) (v : BitVec 32) : Mem := fun x =>
  if x = a then v.extractLsb' 0 8
  else if x = a + 1 then v.extractLsb' 8 8
  else if x = a + 2 then v.extractLsb' 16 8
  else if x = a + 3 then v.extractLsb' 24 8
  else m x

/-- Store the byte `c` at the `n` addresses from `a` on (`memset`). -/
def fill (m : Mem) (a : Nat) (c : BitVec 8) (n : Nat) : Mem := fun x =>
  if a ≤ x ∧ x < a + n then c else m x

/-- Copy `n` bytes from `src` to `dst`; the source is read before the target is written,
so the ranges may overlap (`memmove`). -/
def move (m : Mem) (dst src n : Nat) : Mem := fun x =>
  if dst ≤ x ∧ x < dst + n then m (src + (x - dst)) else m x

/-- Store the words `w 0`, …, `w (n - 1)` from `a` on, one after the other. -/
def writeWords (m : Mem) (a : Nat) (w : Nat → BitVec 32) : Nat → Mem
  | 0 => m
  | n + 1 => (writeWords m a w n).write32 (a + 4 * n) (w n)

/-- Store the bytes `l` from `a` on. -/
def store (m : Mem) (a : Nat) (l : List (BitVec 8)) : Mem := fun x =>
  if a ≤ x ∧ x < a + l.length then l.getD (x - a) 0#8 else m x

/-- The memory that holds the word `w i` at address `4 * i`. -/
def ofWords (w : Nat → BitVec 32) : Mem := fun x => (w (x / 4)).extractLsb' (8 * (x % 4)) 8

/-! ## Reads that do not see a write -/

theorem read32_congr {m m' : Mem} {a : Nat} (h : ∀ x, a ≤ x → x < a + 4 → m x = m' x) :
    m.read32 a = m'.read32 a := by
  simp only [read32]
  rw [h a (by omega) (by omega), h (a + 1) (by omega) (by omega), h (a + 2) (by omega) (by omega),
    h (a + 3) (by omega) (by omega)]

theorem read32_shift {m m' : Mem} {a b : Nat} (h : ∀ c < 4, m' (b + c) = m (a + c)) :
    m'.read32 b = m.read32 a := by
  have h0 := h 0 (by omega)
  simp only [read32]
  rw [h 1 (by omega), h 2 (by omega), h 3 (by omega)]
  simp only [Nat.add_zero] at h0
  rw [h0]

theorem write32_of_disjoint (m : Mem) {a x : Nat} (v : BitVec 32) (h : x < a ∨ a + 4 ≤ x) :
    m.write32 a v x = m x := by
  simp only [write32]
  rw [if_neg (by omega), if_neg (by omega), if_neg (by omega), if_neg (by omega)]

/-- Stores below an address leave what is there. -/
theorem foldl_write32_of_le {l : List (Nat × BitVec 32)} {m : Mem} {b x : Nat}
    (h : ∀ w ∈ l, w.1 + 4 ≤ b) (hx : b ≤ x) :
    l.foldl (fun m w => Mem.write32 m w.1 w.2) m x = m x := by
  induction l generalizing m with
  | nil => rfl
  | cons w l ih =>
      rw [List.foldl_cons, ih fun v hv => h v (List.mem_cons_of_mem _ hv)]
      have := h w (List.mem_cons_self ..)
      exact write32_of_disjoint m _ (by omega)

theorem fill_of_mem (m : Mem) {a x n : Nat} (c : BitVec 8) (h : a ≤ x) (h' : x < a + n) :
    m.fill a c n x = c := by
  simp only [fill, if_pos (And.intro h h')]

theorem fill_of_disjoint (m : Mem) {a x n : Nat} (c : BitVec 8) (h : x < a ∨ a + n ≤ x) :
    m.fill a c n x = m x := by
  simp only [fill]
  rw [if_neg (by omega)]

theorem move_of_mem (m : Mem) {dst src x n : Nat} (h : dst ≤ x) (h' : x < dst + n) :
    m.move dst src n x = m (src + (x - dst)) := by
  simp only [move, if_pos (And.intro h h')]

theorem move_of_disjoint (m : Mem) {dst src x n : Nat} (h : x < dst ∨ dst + n ≤ x) :
    m.move dst src n x = m x := by
  simp only [move]
  rw [if_neg (by omega)]

theorem read32_write32_of_disjoint (m : Mem) {a b : Nat} (v : BitVec 32)
    (h : b + 4 ≤ a ∨ a + 4 ≤ b) : (m.write32 a v).read32 b = m.read32 b :=
  read32_congr fun x hx hx' => write32_of_disjoint m v (by omega)

theorem read32_fill_of_disjoint (m : Mem) {a b n : Nat} (c : BitVec 8)
    (h : b + 4 ≤ a ∨ a + n ≤ b) : (m.fill a c n).read32 b = m.read32 b :=
  read32_congr fun x hx hx' => fill_of_disjoint m c (by omega)

theorem read32_move_of_disjoint (m : Mem) {dst src b n : Nat}
    (h : b + 4 ≤ dst ∨ dst + n ≤ b) : (m.move dst src n).read32 b = m.read32 b :=
  read32_congr fun x hx hx' => move_of_disjoint m (by omega)

/-! ## Reads of what was written -/

theorem append_extract (v : BitVec 32) :
    (v.extractLsb' 24 8 ++ v.extractLsb' 16 8 ++ v.extractLsb' 8 8 ++ v.extractLsb' 0 8 :
      BitVec 32) = v := by
  ext i hi
  simp only [BitVec.getElem_append, BitVec.getElem_extractLsb']
  split
  · simp [BitVec.getLsbD_eq_getElem hi]
  · split
    · rw [show 8 + (i - 8) = i by omega, BitVec.getLsbD_eq_getElem hi]
    · split
      · rw [show 16 + (i - 8 - 8) = i by omega, BitVec.getLsbD_eq_getElem hi]
      · rw [show 24 + (i - 8 - 8 - 8) = i by omega, BitVec.getLsbD_eq_getElem hi]

/-- The bytes of a word. -/
theorem byte_eq_extract (m : Mem) (a : Nat) {c : Nat} (hc : c < 4) :
    m (a + c) = (m.read32 a).extractLsb' (8 * c) 8 := by
  ext i hi
  rw [BitVec.getElem_extractLsb']
  simp only [read32, BitVec.getLsbD_append]
  rcases (by omega : c = 0 ∨ c = 1 ∨ c = 2 ∨ c = 3) with rfl | rfl | rfl | rfl
  · rw [if_pos (by omega), show 8 * 0 + i = i by omega, BitVec.getLsbD_eq_getElem hi]
    rfl
  · rw [if_neg (by omega), if_pos (by omega), show 8 * 1 + i - 8 = i by omega,
      BitVec.getLsbD_eq_getElem hi]
  · rw [if_neg (by omega), if_neg (by omega), if_pos (by omega), show 8 * 2 + i - 8 - 8 = i by omega,
      BitVec.getLsbD_eq_getElem hi]
  · rw [if_neg (by omega), if_neg (by omega), if_neg (by omega),
      show 8 * 3 + i - 8 - 8 - 8 = i by omega, BitVec.getLsbD_eq_getElem hi]

/-- Two words are equal when their bytes are. -/
theorem exists_byte_ne {m m' : Mem} {a : Nat} (h : m'.read32 a ≠ m.read32 a) :
    ∃ c < 4, m' (a + c) ≠ m (a + c) := by
  by_contra hall
  refine h (read32_congr fun x hx hx' => ?_)
  by_contra hne
  exact hall ⟨x - a, by omega, by rw [Nat.add_sub_of_le hx]; exact hne⟩

@[simp] theorem read32_write32_self (m : Mem) (a : Nat) (v : BitVec 32) :
    (m.write32 a v).read32 a = v := by
  have h0 : m.write32 a v a = v.extractLsb' 0 8 := by simp [write32]
  have h1 : m.write32 a v (a + 1) = v.extractLsb' 8 8 := by simp [write32]
  have h2 : m.write32 a v (a + 2) = v.extractLsb' 16 8 := by simp [write32]
  have h3 : m.write32 a v (a + 3) = v.extractLsb' 24 8 := by simp [write32]
  rw [read32, h0, h1, h2, h3]
  exact append_extract v

theorem read32_ofWords (w : Nat → BitVec 32) (i : Nat) : (ofWords w).read32 (4 * i) = w i := by
  have hbyte : ∀ k < 4, ofWords w (4 * i + k) = (w i).extractLsb' (8 * k) 8 := by
    intro k hk
    rw [ofWords, show (4 * i + k) / 4 = i by omega, show (4 * i + k) % 4 = k by omega]
  rw [read32, hbyte 3 (by omega), hbyte 2 (by omega), hbyte 1 (by omega)]
  have h0 := hbyte 0 (by omega)
  rw [Nat.add_zero] at h0
  rw [h0]
  exact append_extract (w i)

theorem write32_write32 (m : Mem) (a : Nat) (v w : BitVec 32) :
    (m.write32 a v).write32 a w = m.write32 a w := by
  funext x
  simp only [write32]
  split <;> [rfl; split <;> [rfl; split <;> [rfl; split <;> rfl]]]

theorem read32_of_zero {m : Mem} {a : Nat} (h : ∀ x, a ≤ x → x < a + 4 → m x = 0#8) :
    m.read32 a = 0#32 := by
  simp only [read32]
  rw [h a (by omega) (by omega), h (a + 1) (by omega) (by omega), h (a + 2) (by omega) (by omega),
    h (a + 3) (by omega) (by omega)]
  rfl

theorem read32_fill_zero (m : Mem) {a b n : Nat} (h : a ≤ b) (h' : b + 4 ≤ a + n) :
    (m.fill a 0 n).read32 b = 0 :=
  read32_of_zero fun x hx hx' => fill_of_mem m 0 (by omega) (by omega)

theorem read32_move_of_mem (m : Mem) {dst src b n : Nat} (h : dst ≤ b) (h' : b + 4 ≤ dst + n) :
    (m.move dst src n).read32 b = m.read32 (src + (b - dst)) := by
  simp only [read32]
  rw [move_of_mem m (by omega) (by omega), move_of_mem m (by omega) (by omega),
    move_of_mem m (by omega) (by omega), move_of_mem m (by omega) (by omega),
    show src + (b + 3 - dst) = src + (b - dst) + 3 by omega,
    show src + (b + 2 - dst) = src + (b - dst) + 2 by omega,
    show src + (b + 1 - dst) = src + (b - dst) + 1 by omega]

/-! ## Several words or bytes -/

theorem writeWords_of_disjoint (m : Mem) {a x n : Nat} (w : Nat → BitVec 32)
    (h : x < a ∨ a + 4 * n ≤ x) : m.writeWords a w n x = m x := by
  induction n with
  | zero => rfl
  | succ n ih => rw [writeWords, write32_of_disjoint _ _ (by omega), ih (by omega)]

theorem read32_writeWords (m : Mem) {a i n : Nat} (w : Nat → BitVec 32) (h : i < n) :
    (m.writeWords a w n).read32 (a + 4 * i) = w i := by
  induction n with
  | zero => omega
  | succ n ih =>
      rw [writeWords]
      by_cases heq : i = n
      · rw [heq, read32_write32_self]
      · rw [read32_write32_of_disjoint _ _ (by omega), ih (by omega)]

theorem read32_writeWords_of_disjoint (m : Mem) {a b n : Nat} (w : Nat → BitVec 32)
    (h : b + 4 ≤ a ∨ a + 4 * n ≤ b) : (m.writeWords a w n).read32 b = m.read32 b :=
  read32_congr fun x hx hx' => writeWords_of_disjoint m w (by omega)

theorem store_of_mem (m : Mem) {a i : Nat} {l : List (BitVec 8)} (h : i < l.length) :
    m.store a l (a + i) = l.getD i 0#8 := by
  simp only [store]
  rw [if_pos (by omega), Nat.add_sub_cancel_left]

theorem store_of_disjoint (m : Mem) {a x : Nat} {l : List (BitVec 8)} (h : x < a ∨ a + l.length ≤ x) :
    m.store a l x = m x := by
  simp only [store]
  rw [if_neg (by omega)]

end Mem

end Jos.Lib
