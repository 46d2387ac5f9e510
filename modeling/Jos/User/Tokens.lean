import Jos.User.CString
import Mathlib.Algebra.Group.Nat.Defs
import Mathlib.Data.List.GetD
import Mathlib.Data.List.TakeWhile

/-!
# The tokens of the shell

`gettoken` and `_gettoken` of `user/sh.c`. They cut the words out of the line in place: the zero behind
a word is written when the next token is looked for, one call ahead. Everything that is written lies at
or behind the end of the word, so the words that have been returned stay as they are.

Main result:
* `gettoken_lexes`: the calls return the tokens, and the words stay.
-/

namespace Jos.User

open Jos.Lib

/-- `WHITESPACE` -/
def whitespace : List (BitVec 8) := [0x20#8, 0x09#8, 0x0d#8, 0x0a#8]

/-- `SYMBOLS` -/
def symbols : List (BitVec 8) := [0x3c#8, 0x7c#8, 0x3e#8, 0x26#8, 0x3b#8, 0x28#8, 0x29#8]

/-- `strchr` on the characters of a string: the rest of the string from `c` on, or a null pointer. -/
def strchr : List (BitVec 8) → BitVec 8 → Option (List (BitVec 8))
  | [], _ => none
  | b :: s, c => if b = c then some (b :: s) else strchr s c

/-- The memory and the static variables of `gettoken`. A pointer is an address; zero is the null
pointer. -/
structure Gettoken where
  mem : Mem
  nc : Int
  np1 : Nat
  np2 : Nat

/-- `while (strchr(WHITESPACE, *s)) *s++ = 0` -/
def skipWhitespace : Nat → Mem → Nat → Option (Mem × Nat)
  | 0, _, _ => none
  | fuel + 1, m, s =>
      if (strchr whitespace (m s)).isSome then skipWhitespace fuel (Function.update m s 0#8) (s + 1)
      else some (m, s)

/-- `while (*s && !strchr(WHITESPACE SYMBOLS, *s)) s++` -/
def wordEnd : Nat → Mem → Nat → Option Nat
  | 0, _, _ => none
  | fuel + 1, m, s =>
      if m s ≠ 0#8 ∧ (strchr (whitespace ++ symbols) (m s)).isNone then wordEnd fuel m (s + 1) else some s

/-- `nc = _gettoken(s, &np1, &np2)`. In fewer steps than the address space has bytes each of its loops
comes to an end. -/
def Gettoken.scan (g : Gettoken) (s : Nat) : Option Gettoken :=
  if s = 0 then some { g with nc := 0 }
  else
    (skipWhitespace (2 ^ 32) g.mem s).bind fun (m, s) =>
      if m s = 0#8 then some ⟨m, 0, 0, 0⟩
      else if (strchr symbols (m s)).isSome then some ⟨Function.update m s 0#8, (m s).toInt, s, s + 1⟩
      else (wordEnd (2 ^ 32) m s).map fun e => ⟨m, 0x77, s, e⟩

/-- `gettoken`: what it returns, and what it stores through its second argument. -/
def gettoken (g : Gettoken) (s : Nat) : Option (Int × Option Nat × Gettoken) :=
  if s ≠ 0 then (g.scan s).map fun g' => (0, none, g')
  else (g.scan g.np2).map fun g' => (g.nc, some g.np1, g')

/-- The first `n` calls `gettoken(0, &t)`. -/
def calls : Nat → Gettoken → Option (List (Int × Option Nat) × Gettoken)
  | 0, g => some ([], g)
  | n + 1, g =>
      (calls n g).bind fun (results, g) =>
        (gettoken g 0).map fun (c, t, g) => (results ++ [(c, t)], g)

/-! ## What it should do -/

inductive Token
  | symbol (c : BitVec 8)
  | word (w : List (BitVec 8))
  deriving DecidableEq

/-- A character of a word. -/
def wordChar (c : BitVec 8) : Bool := decide (c ∉ whitespace ∧ c ∉ symbols)

theorem length_dropWhile_lt (p : BitVec 8 → Bool) (c : BitVec 8) (l : List (BitVec 8)) :
    (l.dropWhile p).length < (c :: l).length := Nat.lt_succ_of_le (List.length_dropWhile_le p l)

/-- The tokens of a line. -/
def lex : List (BitVec 8) → List Token
  | [] => []
  | c :: l =>
      if c ∈ whitespace then lex l
      else if c ∈ symbols then .symbol c :: lex l
      else .word (c :: l.takeWhile wordChar) :: lex (l.dropWhile wordChar)
termination_by l => l.length
decreasing_by
  · exact Nat.lt_succ_self _
  · exact Nat.lt_succ_self _
  · exact length_dropWhile_lt wordChar c l

/-- A call returns the token, or says that there are no more. A word is in memory. -/
def Returns (m : Mem) (result : Int × Option Nat) : Option Token → Prop
  | none => result.1 = 0
  | some (.symbol c) => result.1 = c.toInt
  | some (.word w) => result.1 = 0x77 ∧ ∃ t, result.2 = some t ∧ CString m t w

section

variable {m m' : Mem} {g g' : Gettoken} {s n fuel : Nat} {c : BitVec 8} {line rest w : List (BitVec 8)}
  {token : Token} {tokens : List Token}

/-! ## Scanning -/

theorem strchr_isSome {l : List (BitVec 8)} : (strchr l c).isSome ↔ c ∈ l := by
  induction l with
  | nil => exact iff_of_false Bool.false_ne_true List.not_mem_nil
  | cons b l ih =>
      unfold strchr
      rw [List.mem_cons]
      split
      · rename_i hb
        exact iff_of_true rfl (Or.inl hb.symm)
      · rename_i hb
        rw [ih]
        exact ⟨Or.inr, fun h => h.resolve_left (Ne.symm hb)⟩

theorem strchr_isNone {l : List (BitVec 8)} : (strchr l c).isNone ↔ c ∉ l := by
  rw [← strchr_isSome, Option.isNone_iff_eq_none, Option.isSome_iff_ne_none, not_not]

theorem lex_nil : lex [] = [] := by
  unfold lex
  rfl

theorem lex_space (h : c ∈ whitespace) : lex (c :: rest) = lex rest := by
  rw [lex, if_pos h]

theorem symbols_not_whitespace : ∀ c ∈ symbols, c ∉ whitespace := by
  simp [symbols, whitespace]

theorem lex_symbol (h : c ∈ symbols) : lex (c :: rest) = .symbol c :: lex rest := by
  rw [lex, if_neg (symbols_not_whitespace c h), if_pos h]

theorem lex_word (h : wordChar c = true) :
    lex (c :: rest) = .word ((c :: rest).takeWhile wordChar) :: lex ((c :: rest).dropWhile wordChar) := by
  obtain ⟨h1, h2⟩ := of_decide_eq_true h
  rw [lex, if_neg h1, if_neg h2, List.takeWhile_cons_of_pos h, List.dropWhile_cons_of_pos h]

theorem CString.append (h : CString m n (w ++ rest)) : CString m (n + w.length) rest := by
  induction w generalizing n with
  | nil => exact h
  | cons c w ih =>
      have := ih h.tail
      rw [List.length_cons, Nat.add_comm w.length 1, ← Nat.add_assoc]
      exact this

/-- A line, or the rest of one, in memory. -/
structure Line (m : Mem) (s : Nat) (rest : List (BitVec 8)) : Prop where
  text : CString m s rest
  nonzero : 0#8 ∉ rest
  bound : s + rest.length < 2 ^ 32
  pos : s ≠ 0

theorem Line.tail (h : Line m s (c :: rest)) : Line m (s + 1) rest := by
  have hbound := h.bound
  rw [List.length_cons] at hbound
  exact ⟨h.text.tail, List.not_mem_of_not_mem_cons h.nonzero, by omega, Nat.succ_ne_zero s⟩

theorem Line.keep (h : Line m s rest) (hm : ∀ x, s ≤ x → m' x = m x) : Line m' s rest :=
  ⟨h.text.keep fun x hx _ => hm x hx, h.nonzero, h.bound, h.pos⟩

theorem Line.head_ne (h : Line m s (c :: rest)) : c ≠ 0#8 := fun h0 =>
  h.nonzero (List.mem_cons.mpr (Or.inl h0.symm))

/-- Whitespace is overwritten, up to the next token or the end of the line. -/
theorem skipWhitespace_ok (h : Line m s rest) (hfuel : rest.length < fuel) :
    ∃ m' k rest', skipWhitespace fuel m s = some (m', s + k) ∧ Line m' (s + k) rest' ∧ lex rest' = lex rest ∧
      (∀ c ∈ rest'.head?, c ∉ whitespace) ∧ (∀ x < s, m' x = m x) ∧ (k = 0 ∧ rest' = rest ∨ m' s = 0#8) := by
  induction rest generalizing m s fuel with
  | nil =>
      cases fuel with
      | zero => exact absurd hfuel (Nat.not_lt_zero _)
      | succ fuel =>
          have hs : m s = 0#8 := h.text.zero
          refine ⟨m, 0, [], ?_, h, rfl, fun c hc => ?_, fun _ _ => rfl, Or.inl ⟨rfl, rfl⟩⟩
          · unfold skipWhitespace
            rw [hs, if_neg (by decide)]
            rfl
          · cases hc
  | cons c rest ih =>
      cases fuel with
      | zero => exact absurd hfuel (Nat.not_lt_zero _)
      | succ fuel =>
          rw [List.length_cons] at hfuel
          unfold skipWhitespace
          rw [h.text.head]
          by_cases hc : c ∈ whitespace
          · rw [if_pos (strchr_isSome.mpr hc)]
            have htail : Line (Function.update m s 0#8) (s + 1) rest :=
              h.tail.keep fun x hx => Function.update_of_ne (by omega) _ _
            obtain ⟨m', k, rest', hrun, hline, hlex, hhead, hkeep, -⟩ := ih htail (Nat.lt_of_succ_lt_succ hfuel)
            have hs : m' s = 0#8 := (hkeep s (Nat.lt_succ_self s)).trans (Function.update_self _ _ _)
            rw [Nat.add_assoc, Nat.add_comm 1 k] at hrun hline
            refine ⟨m', k + 1, rest', hrun, hline, hlex.trans (lex_space hc).symm, hhead, fun x hx => ?_,
              Or.inr hs⟩
            rw [hkeep x (by omega)]
            exact Function.update_of_ne (by omega) _ _
          · rw [if_neg (fun h => hc (strchr_isSome.mp h))]
            refine ⟨m, 0, c :: rest, rfl, h, rfl, fun d hd => ?_, fun _ _ => rfl, Or.inl ⟨rfl, rfl⟩⟩
            cases hd
            exact hc

theorem wordEnd_ok (h : CString m s rest) (hnz : 0#8 ∉ rest) (hfuel : rest.length < fuel) :
    wordEnd fuel m s = some (s + (rest.takeWhile wordChar).length) := by
  induction rest generalizing s fuel with
  | nil =>
      cases fuel with
      | zero => exact absurd hfuel (Nat.not_lt_zero _)
      | succ fuel =>
          have hs : m s = 0#8 := h.zero
          unfold wordEnd
          rw [if_neg (fun hgo => hgo.1 hs)]
          rfl
  | cons c rest ih =>
      cases fuel with
      | zero => exact absurd hfuel (Nat.not_lt_zero _)
      | succ fuel =>
          have hchar : (strchr (whitespace ++ symbols) c).isNone ↔ wordChar c = true := by
            rw [strchr_isNone, List.mem_append, not_or]
            exact decide_eq_true_iff.symm
          unfold wordEnd
          rw [h.head]
          by_cases hc : wordChar c = true
          · have hne : c ≠ 0#8 := fun h0 => hnz (List.mem_cons.mpr (Or.inl h0.symm))
            rw [if_pos ⟨hne, hchar.mpr hc⟩,
              ih h.tail (List.not_mem_of_not_mem_cons hnz) (Nat.lt_of_succ_lt_succ hfuel),
              List.takeWhile_cons_of_pos hc, List.length_cons, Nat.add_assoc, Nat.add_comm 1]
          · rw [if_neg (fun hgo => hc (hchar.mp hgo.2)), List.takeWhile_cons_of_neg hc]
            rfl

/-! ## The next token -/

/-- These tokens are left. The first of them has been found already; if it is a word, the zero behind
it is still to be written. -/
def Pending (g : Gettoken) : List Token → Prop
  | [] => g.nc = 0 ∧ g.np2 = 0
  | .symbol c :: tokens => g.nc = c.toInt ∧ ∃ rest, Line g.mem g.np2 rest ∧ tokens = lex rest
  | .word w :: tokens => g.nc = 0x77 ∧ g.np2 = g.np1 + w.length ∧
      (∀ k (h : k < w.length), g.mem (g.np1 + k) = w.get ⟨k, h⟩) ∧
      ∃ rest, Line g.mem g.np2 rest ∧ tokens = lex rest ∧ ∀ c ∈ rest.head?, wordChar c = false

theorem pending_symbol (h : Line m s (c :: rest)) (hc : c ∈ symbols) :
    Pending ⟨Function.update m s 0#8, c.toInt, s, s + 1⟩ (lex (c :: rest)) := by
  rw [lex_symbol hc]
  exact ⟨rfl, rest, h.tail.keep fun x hx => Function.update_of_ne (by omega) _ _, rfl⟩

theorem pending_word (h : Line m s (c :: rest)) (hc : wordChar c = true) :
    ∃ e, wordEnd (2 ^ 32) m s = some e ∧ s < e ∧ Pending ⟨m, 0x77, s, e⟩ (lex (c :: rest)) := by
  have hbound := h.bound
  have hsplit := @List.takeWhile_append_dropWhile _ wordChar (c :: rest)
  have hlen := congrArg List.length hsplit
  rw [List.length_append] at hlen
  have hword : 0 < ((c :: rest).takeWhile wordChar).length := by
    rw [List.takeWhile_cons_of_pos hc]
    exact Nat.succ_pos _
  refine ⟨_, wordEnd_ok h.text h.nonzero (by omega), Nat.lt_add_of_pos_right hword, ?_⟩
  rw [lex_word hc]
  refine ⟨rfl, rfl, fun k hk => ?_, _, ⟨?_, fun h0 => ?_, ?_, ?_⟩, rfl, fun d hd => ?_⟩
  · have hk' : k < (c :: rest).length := by omega
    refine (h.text.byte k hk').trans ?_
    rw [List.get_eq_getElem, List.get_eq_getElem]
    exact ((List.takeWhile_prefix wordChar).getElem hk).symm
  · refine CString.append ?_
    rw [hsplit]
    exact h.text
  · exact h.nonzero (List.dropWhile_subset _ h0)
  · dsimp only
    omega
  · dsimp only
    omega
  · have hnot := List.head?_dropWhile_not wordChar (c :: rest)
    rw [hd] at hnot
    exact hnot

/-- The scan from `s` on finds the next token. -/
structure Scanned (g : Gettoken) (s : Nat) (rest : List (BitVec 8)) (g' : Gettoken) : Prop where
  pending : Pending g' (lex rest)
  keep : ∀ x < s, g'.mem x = g.mem x
  behind : s < g'.np2 ∨ g'.np2 = 0
  closed : (∀ c ∈ rest.head?, wordChar c = false) → g'.mem s = 0#8

theorem scan_ok (h : Line g.mem s rest) : ∃ g', g.scan s = some g' ∧ Scanned g s rest g' := by
  have hfuel : rest.length < 2 ^ 32 := by
    have := h.bound
    omega
  obtain ⟨m, k, rest', hskip, hline, hlex, hhead, hkeep, hzero⟩ := skipWhitespace_ok h hfuel
  unfold Gettoken.scan
  rw [if_neg h.pos, hskip, Option.bind_some]
  dsimp only
  cases rest' with
  | nil =>
      have hs : m (s + k) = 0#8 := hline.text.zero
      rw [if_pos hs]
      refine ⟨_, rfl, ?_, hkeep, Or.inr rfl, fun _ => ?_⟩
      · rw [← hlex, lex_nil]
        exact ⟨rfl, rfl⟩
      · rcases hzero with ⟨rfl, -⟩ | hzero
        · exact hs
        · exact hzero
  | cons c rest' =>
      rw [hline.text.head, if_neg hline.head_ne]
      by_cases hc : c ∈ symbols
      · rw [if_pos (strchr_isSome.mpr hc)]
        refine ⟨_, rfl, ?_, fun x hx => ?_, Or.inl (by dsimp only; omega), fun _ => ?_⟩
        · rw [← hlex]
          exact pending_symbol hline hc
        · exact (Function.update_of_ne (by omega) _ _).trans (hkeep x hx)
        · dsimp only
          rw [Function.update_apply]
          split
          · rfl
          · rcases hzero with ⟨rfl, -⟩ | hzero
            · exact absurd rfl ‹_›
            · exact hzero
      · have hchar : wordChar c = true := decide_eq_true ⟨hhead c rfl, hc⟩
        obtain ⟨e, hend, hlt, hpending⟩ := pending_word hline hchar
        rw [if_neg (fun h => hc (strchr_isSome.mp h)), hend]
        refine ⟨_, rfl, ?_, hkeep, Or.inl (by dsimp only; omega), fun hword => ?_⟩
        · rw [← hlex]
          exact hpending
        · rcases hzero with ⟨-, hrest⟩ | hzero
          · rw [← hrest] at hword
            exact absurd hchar (Bool.eq_false_iff.mp (hword c rfl))
          · exact hzero

/-- One more call. The word that it returns is closed by the same call, and all that is behind it is
not. -/
theorem gettoken_next (h : Pending g (token :: tokens)) : ∃ t g', gettoken g 0 = some (g.nc, some t, g') ∧
    Pending g' tokens ∧ Returns g'.mem (g.nc, some t) (some token) ∧ (∀ x < g.np2, g'.mem x = g.mem x) ∧
    g.np2 ≠ 0 ∧ (g.np2 < g'.np2 ∨ g'.np2 = 0) ∧ ∀ w, token = .word w → t + w.length = g.np2 := by
  unfold gettoken
  rw [if_neg (fun h => h rfl)]
  cases token with
  | symbol c =>
      obtain ⟨hnc, rest, hline, rfl⟩ := h
      obtain ⟨g', hscan, hs⟩ := scan_ok hline
      rw [hscan]
      refine ⟨g.np1, g', rfl, hs.pending, hnc, hs.keep, hline.pos, hs.behind, fun w hw => ?_⟩
      cases hw
  | word w =>
      obtain ⟨hnc, hnp2, hword, rest, hline, rfl, hclosed⟩ := h
      obtain ⟨g', hscan, hs⟩ := scan_ok hline
      rw [hscan]
      refine ⟨g.np1, g', rfl, hs.pending, ⟨hnc, g.np1, rfl, ⟨fun k hk => ?_, ?_⟩⟩, hs.keep, hline.pos, hs.behind,
        fun w' hw => ?_⟩
      · rw [hs.keep _ (by omega)]
        exact hword k hk
      · rw [← hnp2]
        exact hs.closed hclosed
      · cases hw
        exact hnp2.symm

/-- A call when there are no more tokens. -/
theorem gettoken_end (h : Pending g []) :
    ∃ t g', gettoken g 0 = some (0, t, g') ∧ Pending g' [] ∧ g'.mem = g.mem := by
  obtain ⟨hnc, hnp2⟩ := h
  unfold gettoken Gettoken.scan
  rw [if_neg (fun h => h rfl), if_pos hnp2]
  refine ⟨some g.np1, { g with nc := 0 }, ?_, ⟨rfl, hnp2⟩, rfl⟩
  rw [hnc]
  rfl

/-! ## All calls -/

/-- After `n` calls. -/
structure Called (line : List (BitVec 8)) (n : Nat) (results : List (Int × Option Nat)) (g : Gettoken) :
    Prop where
  length : results.length = n
  pending : Pending g ((lex line).drop n)
  returns : ∀ (i : Nat) r, results[i]? = some r → Returns g.mem r (lex line)[i]?
  closed : ∀ (i : Nat) c t w, results[i]? = some (c, some t) → (lex line)[i]? = some (.word w) →
    t + w.length < g.np2 ∨ g.np2 = 0

/-- A word that is closed stays as it is. -/
theorem Returns.keep {o : Option Token} {r : Int × Option Nat} (h : Returns m r o)
    (hm : ∀ t w, r.2 = some t → o = some (.word w) → ∀ x, x ≤ t + w.length → m' x = m x) : Returns m' r o := by
  cases o with
  | none => exact h
  | some token =>
      cases token with
      | symbol c => exact h
      | word w =>
          obtain ⟨hr, t, ht, hw⟩ := h
          exact ⟨hr, t, ht, hw.keep fun x _ hx => hm t w ht rfl x hx⟩

theorem getElem?_concat_cases {results : List (Int × Option Nat)} {r r' : Int × Option Nat} {i : Nat}
    (h : (results ++ [r])[i]? = some r') : results[i]? = some r' ∨ i = results.length ∧ r' = r := by
  rw [List.getElem?_append] at h
  split at h
  · exact Or.inl h
  · rw [List.getElem?_singleton] at h
    split at h
    · cases h
      exact Or.inr ⟨by omega, rfl⟩
    · cases h

/-- What an earlier call has returned stays as it is. -/
theorem Called.keep {results : List (Int × Option Nat)} {i : Nat} {r : Int × Option Nat}
    (h : Called line n results g) (hi : results[i]? = some r)
    (hm : ∀ x, x < g.np2 ∨ g.np2 = 0 → m' x = g.mem x) : Returns m' r (lex line)[i]? := by
  refine (h.returns i r hi).keep fun t w ht hw x hx => hm x ?_
  have hr : results[i]? = some (r.1, some t) := by
    rw [hi, ← ht]
  rcases h.closed i r.1 t w hr hw with hlt | hzero
  · exact Or.inl (by omega)
  · exact Or.inr hzero

theorem Called.next {results : List (Int × Option Nat)} (h : Called line n results g) :
    ∃ c t g', gettoken g 0 = some (c, t, g') ∧ Called line (n + 1) (results ++ [(c, t)]) g' := by
  have hlen := h.length
  have hlength : ∀ r, (results ++ [r]).length = n + 1 := by
    intro r
    rw [List.length_append, hlen]
    rfl
  have hpending := h.pending
  by_cases hn : n < (lex line).length
  · rw [List.drop_eq_getElem_cons hn] at hpending
    obtain ⟨t, g', hcall, hpending', hreturn, hkeep, hne, hbehind, hword⟩ := gettoken_next hpending
    refine ⟨g.nc, some t, g', hcall, hlength _, hpending', fun i r hr => ?_, fun i c t' w hr hw => ?_⟩
    · rcases getElem?_concat_cases hr with hr | ⟨hi, rfl⟩
      · exact h.keep hr fun x hx => hkeep x (hx.resolve_right hne)
      · rw [hi, hlen, List.getElem?_eq_getElem hn]
        exact hreturn
    · rcases getElem?_concat_cases hr with hr | ⟨hi, hr⟩
      · have hlt := (h.closed i c t' w hr hw).resolve_right hne
        omega
      · cases hr
        rw [hi, hlen, List.getElem?_eq_getElem hn] at hw
        rw [hword w (Option.some.inj hw)]
        exact hbehind
  · have hnone : (lex line)[n]? = none := List.getElem?_eq_none (Nat.not_lt.mp hn)
    rw [List.drop_eq_nil_of_le (Nat.not_lt.mp hn)] at hpending
    obtain ⟨t, g', hcall, hpending', hmem⟩ := gettoken_end hpending
    refine ⟨0, t, g', hcall, hlength _, ?_, fun i r hr => ?_, fun i c t' w hr hw => Or.inr hpending'.2⟩
    · rw [List.drop_eq_nil_of_le (by omega)]
      exact hpending'
    · rcases getElem?_concat_cases hr with hr | ⟨hi, rfl⟩
      · exact h.keep hr fun x _ => congrFun hmem x
      · rw [hi, hlen, hnone]
        rfl

theorem called_start (h : Pending g (lex line)) : Called line 0 [] g := by
  refine ⟨rfl, h, fun i r hr => ?_, fun i c t w hr => ?_⟩
  · cases hr
  · cases hr

theorem calls_ok (h : Pending g (lex line)) (n : Nat) : ∃ results g', calls n g = some (results, g') ∧
    Called line n results g' := by
  induction n with
  | zero => exact ⟨[], g, rfl, called_start h⟩
  | succ n ih =>
      obtain ⟨results, g', hrun, hcalled⟩ := ih
      obtain ⟨c, t, g'', hcall, hcalled'⟩ := hcalled.next
      refine ⟨results ++ [(c, t)], g'', ?_, hcalled'⟩
      unfold calls
      rw [hrun, Option.bind_some]
      dsimp only
      rw [hcall]
      rfl

end

/-- The calls return the tokens of the line, and then that there are no more; the words stay as they
are. -/
theorem gettoken_lexes (g : Gettoken) {s : Nat} {line : List (BitVec 8)} (h : Line g.mem s line) :
    ∃ g0, gettoken g s = some (0, none, g0) ∧ ∀ n, ∃ results g', calls n g0 = some (results, g') ∧
      results.length = n ∧ ∀ (i : Nat) r, results[i]? = some r → Returns g'.mem r (lex line)[i]? := by
  obtain ⟨g0, hscan, hs⟩ := scan_ok h
  refine ⟨g0, ?_, fun n => ?_⟩
  · unfold gettoken
    rw [if_pos h.pos, hscan]
    rfl
  · obtain ⟨results, g', hrun, hcalled⟩ := calls_ok hs.pending n
    exact ⟨results, g', hrun, hcalled.length, hcalled.returns⟩

/-- The line, at the address 1. -/
def textAt (line : List (BitVec 8)) : Mem := fun x => line.getD (x - 1) 0#8

theorem line_textAt {line : List (BitVec 8)} (hnz : 0#8 ∉ line) (h : 1 + line.length < 2 ^ 32) :
    Line (textAt line) 1 line := by
  refine ⟨⟨fun k hk => ?_, ?_⟩, hnz, h, by decide⟩
  · unfold textAt
    rw [Nat.add_sub_cancel_left, List.getD_eq_getElem _ _ hk]
    rfl
  · unfold textAt
    rw [Nat.add_sub_cancel_left, List.getD_eq_default _ _ (Nat.le_refl _)]

/-- `cat<f |x` -/
theorem gettoken_lexes_cat :
    let line := [0x63#8, 0x61#8, 0x74#8, 0x3c#8, 0x66#8, 0x20#8, 0x7c#8, 0x78#8]
    ∃ g0, gettoken ⟨textAt line, 0, 0, 0⟩ 1 = some (0, none, g0) ∧ ∀ n, ∃ results g',
      calls n g0 = some (results, g') ∧ results.length = n ∧
        ∀ (i : Nat) r, results[i]? = some r → Returns g'.mem r (lex line)[i]? :=
  gettoken_lexes ⟨textAt _, 0, 0, 0⟩ (line_textAt (by decide) (by decide))

end Jos.User
