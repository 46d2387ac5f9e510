import Jos.User.CString
import Mathlib.Data.List.Induction

/-!
# Reading a line

`readline` of `lib/readline.c`: one chain of branches for the kind of the character and the state of
the line. Where the line is empty, DEL does not reach the branch that deletes; it is not below a space,
so the next branch takes it for a character of the line.

Main results:
* `readline_line_iff`: when the string is the line that was typed;
* `readline_del`: a line with which it is not.
-/

namespace Jos.User

open Jos.Lib

/-- `BUFLEN` -/
def buflen : Nat := 1024

/-- `E_EOF` -/
def eEof : Int := 8

/-- What `readline` prints. -/
inductive Printed
  | prompt (text : String)
  | char (c : Int)
  | readError (c : Int)
  deriving DecidableEq

/-- The index and the buffer of `readline`, what it has printed, and where it has stored something in
the buffer. -/
structure LineState where
  i : Nat
  buf : Mem
  printed : List Printed
  stored : List Nat

/-- `if (echoing) cputchar(c)` -/
def LineState.echo (s : LineState) (echoing c : Int) : LineState :=
  if echoing ≠ 0 then { s with printed := s.printed ++ [.char c] } else s

/-- `buf[i] = c` -/
def LineState.put (s : LineState) (c : Int) : LineState :=
  { s with buf := Function.update s.buf s.i (BitVec.ofInt 8 c), stored := s.i :: s.stored }

/-- `readline` returns its buffer or a null pointer; the rest of the input has not been read. -/
structure LineRead where
  state : LineState
  line : Bool
  rest : List Int

/-- The loop of `readline`, for these results of `getchar`. -/
def readlineLoop (echoing : Int) : List Int → LineState → Option LineRead
  | [], _ => none
  | c :: input, s =>
      if c < 0 then
        some ⟨if c ≠ -eEof then { s with printed := s.printed ++ [.readError c] } else s, false, input⟩
      else if (c = 0x08 ∨ c = 0x7f) ∧ 0 < s.i then
        let s := s.echo echoing 0x08
        readlineLoop echoing input { s with i := s.i - 1 }
      else if 0x20 ≤ c ∧ s.i < buflen - 1 then
        let s := (s.echo echoing c).put c
        readlineLoop echoing input { s with i := s.i + 1 }
      else if c = 0x0a ∨ c = 0x0d then some ⟨(s.echo echoing 0x0a).put 0, true, input⟩
      else readlineLoop echoing input s

/-- `readline`; `echoing` is the result of `iscons`. -/
def readline (prompt : Option String) (echoing : Int) (buf : Mem) (input : List Int) : Option LineRead :=
  readlineLoop echoing input ⟨0, buf, prompt.toList.map Printed.prompt, []⟩

/-! ## Editing a line -/

/-- `'\b'` and DEL -/
def Erases (c : BitVec 8) : Prop := c = 0x08#8 ∨ c = 0x7f#8

instance (c : BitVec 8) : Decidable (Erases c) := inferInstanceAs (Decidable (_ ∨ _))

/-- A character of the input within a line. -/
structure IsKey (c : BitVec 8) : Prop where
  ne_zero : c ≠ 0#8
  ne_newline : c ≠ 0x0a#8
  ne_return : c ≠ 0x0d#8

/-- What a character should do to the line. -/
def editLine (line : List (BitVec 8)) (c : BitVec 8) : List (BitVec 8) :=
  if Erases c then line.dropLast
  else if 0x20#8 ≤ c ∧ line.length < buflen - 1 then line ++ [c]
  else line

/-- The characters never erase the one that has been typed before them. -/
def Keeps (keys : List (BitVec 8)) : Prop := ∀ l, l <+: keys → l.foldl editLine [0x20#8] ≠ []

/-- The characters erase all that they write on an empty line; there DEL is written. -/
inductive Empties : List (BitVec 8) → Prop
  | nil : Empties []
  | ignored {c : BitVec 8} {keys : List (BitVec 8)} (h : c < 0x20#8) (hkeys : Empties keys) :
      Empties (c :: keys)
  | erased {c e : BitVec 8} {word keys : List (BitVec 8)} (h : 0x20#8 ≤ c) (hword : Keeps word)
      (he : (word ++ [e]).foldl editLine [0x20#8] = []) (hkeys : Empties keys) :
      Empties (c :: (word ++ e :: keys))

/-- Each DEL on an empty line is erased again. -/
def DelsErased (keys : List (BitVec 8)) : Prop :=
  ∀ before after, keys = before ++ 0x7f#8 :: after → Empties before → ¬ Keeps after

/-- What a character does to the line. -/
def typeLine (line : List (BitVec 8)) (c : BitVec 8) : List (BitVec 8) :=
  if Erases c ∧ line ≠ [] then line.dropLast
  else if 0x20#8 ≤ c ∧ line.length < buflen - 1 then line ++ [c]
  else line

section

variable {line line' keys word before after : List (BitVec 8)} {c e d : BitVec 8}

theorem typeLine_eq (h : line ≠ []) : typeLine line c = editLine line c := by
  unfold typeLine editLine
  by_cases he : Erases c
  · rw [if_pos ⟨he, h⟩, if_pos he]
  · rw [if_neg (fun hc => he hc.1), if_neg he]

theorem typeLine_nil (c : BitVec 8) : typeLine [] c = if 0x20#8 ≤ c then [c] else [] := by
  unfold typeLine
  rw [if_neg (fun h => h.2 rfl)]
  by_cases hc : 0x20#8 ≤ c
  · rw [if_pos hc, if_pos ⟨hc, by decide⟩]
    rfl
  · rw [if_neg hc, if_neg (fun h => hc h.1)]

/-- How long the line gets depends on its length only. -/
theorem editLine_length (h : line.length = line'.length) :
    (editLine line c).length = (editLine line' c).length := by
  unfold editLine
  rw [h]
  split
  · rw [List.length_dropLast, List.length_dropLast, h]
  · split
    · rw [List.length_append, List.length_append, h]
    · exact h

theorem foldl_editLine_length (h : line.length = line'.length) :
    (keys.foldl editLine line).length = (keys.foldl editLine line').length := by
  induction keys generalizing line line' with
  | nil => exact h
  | cons c keys ih => exact ih (editLine_length h)

theorem foldl_editLine_char (keys : List (BitVec 8)) (c d : BitVec 8) :
    keys.foldl editLine [c] = [] ↔ keys.foldl editLine [d] = [] := by
  have hlen : ([c] : List (BitVec 8)).length = [d].length := rfl
  rw [← List.length_eq_zero_iff, ← List.length_eq_zero_iff, foldl_editLine_length hlen]

/-- As long as the line is not empty, its first character stays. -/
theorem editLine_head (h : editLine line c ≠ []) (hline : line ≠ []) : (editLine line c).head? = line.head? := by
  cases line with
  | nil => exact absurd rfl hline
  | cons d line =>
      unfold editLine at h ⊢
      split
      · rename_i he
        rw [if_pos he] at h
        cases line with
        | nil => exact absurd rfl h
        | cons d' line => rfl
      · split
        · rfl
        · rfl

/-- Characters that do not erase the first one are typed as they should be, and it stays the first. -/
theorem Keeps.typed (h : Keeps keys) (d : BitVec 8) : keys.foldl typeLine [d] = keys.foldl editLine [d] ∧
    (keys.foldl typeLine [d]).head? = some d := by
  induction keys using List.reverseRecOn with
  | nil => exact ⟨rfl, rfl⟩
  | append_singleton keys c ih =>
      obtain ⟨heq, hhead⟩ := ih fun l hl => h l (hl.trans (List.prefix_append keys [c]))
      have hne : keys.foldl typeLine [d] ≠ [] := by
        intro hnil
        rw [hnil] at hhead
        cases hhead
      have hfull : (keys ++ [c]).foldl editLine [d] ≠ [] := by
        intro hnil
        exact h _ (List.prefix_refl _) ((foldl_editLine_char _ _ _).mp hnil)
      rw [List.foldl_append, List.foldl_append] at *
      rw [List.foldl_cons, List.foldl_nil, List.foldl_cons, List.foldl_nil, typeLine_eq hne, heq] at *
      exact ⟨rfl, (editLine_head hfull hne).trans hhead⟩

/-- The line is empty, or there is the character that has been its first one since. -/
theorem typed_cases (keys : List (BitVec 8)) : keys.foldl typeLine [] = [] ∨
    ∃ before c after, keys = before ++ c :: after ∧ before.foldl typeLine [] = [] ∧ 0x20#8 ≤ c ∧ Keeps after := by
  induction keys using List.reverseRecOn with
  | nil => exact Or.inl rfl
  | append_singleton keys k ih =>
      rw [List.foldl_append, List.foldl_cons, List.foldl_nil]
      rcases ih with hnil | ⟨before, c, after, hkeys, hbefore, hc, hkeeps⟩
      · rw [hnil, typeLine_nil]
        split
        · rename_i hk
          refine Or.inr ⟨keys, k, [], rfl, hnil, hk, fun l hl => ?_⟩
          rw [List.prefix_nil.mp hl]
          exact List.cons_ne_nil _ _
        · exact Or.inl rfl
      · obtain ⟨heq, hhead⟩ := hkeeps.typed c
        have hline : keys.foldl typeLine [] = after.foldl typeLine [c] := by
          rw [hkeys, List.foldl_append, hbefore, List.foldl_cons, typeLine_nil, if_pos hc]
        have hne : keys.foldl typeLine [] ≠ [] := by
          rw [hline]
          intro hnil
          rw [hnil] at hhead
          cases hhead
        by_cases hlast : typeLine (keys.foldl typeLine []) k = []
        · exact Or.inl hlast
        · have hlong : keys ++ [k] = before ++ c :: (after ++ [k]) := by
            rw [hkeys, List.append_assoc]
            rfl
          refine Or.inr ⟨before, c, after ++ [k], hlong, hbefore, hc, fun l hl => ?_⟩
          rcases List.prefix_concat_iff.mp hl with rfl | hl
          · rw [typeLine_eq hne, hline, heq] at hlast
            intro hnil
            refine hlast ?_
            have := (foldl_editLine_char _ _ c).mp hnil
            rw [List.foldl_append] at this
            exact this
          · exact hkeeps l hl

/-- When a line gets empty, there is a first character that makes it so. -/
theorem first_empty (hline : line ≠ []) (h : keys.foldl typeLine line = []) : ∃ word e rest,
    keys = word ++ e :: rest ∧ (∀ l, l <+: word → l.foldl editLine line ≠ []) ∧
      (word ++ [e]).foldl editLine line = [] ∧ rest.foldl typeLine [] = [] := by
  induction keys generalizing line with
  | nil => exact absurd h hline
  | cons c keys ih =>
      rw [List.foldl_cons, typeLine_eq hline] at h
      by_cases hc : editLine line c = []
      · rw [hc] at h
        refine ⟨[], c, keys, rfl, fun l hl => ?_, hc, h⟩
        rw [List.prefix_nil.mp hl]
        exact hline
      · obtain ⟨word, e, rest, hkeys, hword, he, hrest⟩ := ih hc h
        refine ⟨c :: word, e, rest, by rw [hkeys]; rfl, fun l hl => ?_, he, hrest⟩
        cases l with
        | nil => exact hline
        | cons b l =>
            obtain ⟨rfl, hl'⟩ := List.cons_prefix_cons.mp hl
            exact hword l hl'

theorem Empties.typed (h : Empties keys) : keys.foldl typeLine [] = [] := by
  induction h with
  | nil => rfl
  | ignored hc _ ih =>
      rw [List.foldl_cons, typeLine_nil, if_neg (BitVec.not_le.mpr hc)]
      exact ih
  | @erased c e word keys hc hword he _ ih =>
      obtain ⟨heq, hhead⟩ := hword.typed c
      have hne : word.foldl typeLine [c] ≠ [] := by
        intro hnil
        rw [hnil] at hhead
        cases hhead
      have hlast := (foldl_editLine_char _ _ c).mp he
      rw [List.foldl_append, List.foldl_cons, List.foldl_nil] at hlast
      rw [List.foldl_cons, typeLine_nil, if_pos hc, List.foldl_append, List.foldl_cons, typeLine_eq hne, heq, hlast]
      exact ih

theorem empties_iff : Empties keys ↔ keys.foldl typeLine [] = [] := by
  refine ⟨Empties.typed, fun h => ?_⟩
  induction hn : keys.length using Nat.strongRecOn generalizing keys with
  | _ n ih =>
      cases keys with
      | nil => exact .nil
      | cons c keys =>
          rw [List.foldl_cons, typeLine_nil] at h
          rw [List.length_cons] at hn
          by_cases hc : 0x20#8 ≤ c
          · rw [if_pos hc] at h
            obtain ⟨word, e, rest, rfl, hword, he, hrest⟩ := first_empty (List.cons_ne_nil c []) h
            rw [List.length_append, List.length_cons] at hn
            refine .erased hc (fun l hl hnil => ?_) ?_ (ih rest.length (by omega) hrest rfl)
            · exact hword l hl ((foldl_editLine_char _ _ _).mp hnil)
            · exact (foldl_editLine_char _ _ _).mp he
          · rw [if_neg hc] at h
            exact .ignored (BitVec.not_le.mp hc) (ih keys.length (by omega) h rfl)

/-! ## When the line is as it should be -/

/-- The line is as it should be, or it begins with a DEL; then it is longer, or the last character was
typed on a full line. -/
def Strays (line line' : List (BitVec 8)) : Prop :=
  line = line' ∨ (∃ t, line = 0x7f#8 :: t) ∧ (line.length = line'.length ∨ line.length = line'.length + 1)

theorem Strays.type (h : Strays line line') : Strays (typeLine line c) (editLine line' c) := by
  rcases h with rfl | ⟨⟨t, rfl⟩, hlen⟩
  · by_cases hline : line = []
    · subst hline
      rw [typeLine_nil]
      unfold editLine
      by_cases he : Erases c
      · rw [if_pos he]
        rcases he with rfl | rfl
        · exact Or.inl rfl
        · exact Or.inr ⟨⟨[], rfl⟩, Or.inr rfl⟩
      · rw [if_neg he]
        refine Or.inl ?_
        by_cases hc : 0x20#8 ≤ c
        · rw [if_pos hc, if_pos ⟨hc, by decide⟩]
          rfl
        · rw [if_neg hc, if_neg (fun h => hc h.1)]
    · exact Or.inl (typeLine_eq hline)
  · rw [typeLine_eq (List.cons_ne_nil _ _)]
    unfold editLine
    rw [List.length_cons] at hlen ⊢
    by_cases he : Erases c
    · rw [if_pos he, if_pos he]
      cases t with
      | nil =>
          rw [List.length_nil] at hlen
          refine Or.inl (List.length_eq_zero_iff.mp ?_).symm
          rw [List.length_dropLast]
          omega
      | cons d t =>
          refine Or.inr ⟨⟨(d :: t).dropLast, rfl⟩, ?_⟩
          rw [List.length_cons] at hlen
          rw [List.length_dropLast, List.length_dropLast, List.length_cons, List.length_cons]
          omega
    · rw [if_neg he, if_neg he]
      by_cases hc : 0x20#8 ≤ c
      · simp only [hc, true_and]
        split
        · rw [if_pos (by omega)]
          refine Or.inr ⟨⟨t ++ [c], rfl⟩, ?_⟩
          rw [List.length_append, List.length_append, List.length_cons]
          omega
        · split
          · refine Or.inr ⟨⟨t, rfl⟩, ?_⟩
            rw [List.length_append, List.length_cons, List.length_singleton]
            omega
          · exact Or.inr ⟨⟨t, rfl⟩, hlen⟩
      · rw [if_neg (fun h => hc h.1), if_neg (fun h => hc h.1)]
        exact Or.inr ⟨⟨t, rfl⟩, hlen⟩

theorem strays_foldl (h : Strays line line') : Strays (keys.foldl typeLine line) (keys.foldl editLine line') := by
  induction keys generalizing line line' with
  | nil => exact h
  | cons c keys ih => exact ih h.type

/-- No DEL should be in the line. -/
theorem del_not_mem_editLine (h : 0x7f#8 ∉ line) : 0x7f#8 ∉ editLine line c := by
  unfold editLine
  split
  · exact fun hmem => h (List.dropLast_subset _ hmem)
  · rename_i he
    split
    · intro hmem
      rcases List.mem_append.mp hmem with hmem | hmem
      · exact h hmem
      · exact he (Or.inr (List.mem_singleton.mp hmem).symm)
    · exact h

theorem del_not_mem_foldl (h : 0x7f#8 ∉ line) : 0x7f#8 ∉ keys.foldl editLine line := by
  induction keys generalizing line with
  | nil => exact h
  | cons c keys ih => exact ih (del_not_mem_editLine h)

theorem typed_eq_iff (keys : List (BitVec 8)) :
    keys.foldl typeLine [] = keys.foldl editLine [] ↔ DelsErased keys := by
  constructor
  · intro h before after hkeys hbefore hkeeps
    have hmem : 0x7f#8 ∈ keys.foldl typeLine [] := by
      rw [hkeys, List.foldl_append, hbefore.typed, List.foldl_cons, typeLine_nil, if_pos (by decide)]
      exact List.mem_of_mem_head? (hkeeps.typed _).2
    rw [h] at hmem
    exact del_not_mem_foldl (List.not_mem_nil) hmem
  · intro h
    have hstrays : Strays (keys.foldl typeLine []) (keys.foldl editLine []) := strays_foldl (Or.inl rfl)
    rcases hstrays with heq | ⟨⟨t, ht⟩, -⟩
    · exact heq
    · rcases typed_cases keys with hnil | ⟨before, c, after, hkeys, hbefore, hc, hkeeps⟩
      · rw [hnil] at ht
        cases ht
      · have hhead := (hkeeps.typed c).2
        rw [hkeys, List.foldl_append, hbefore, List.foldl_cons, typeLine_nil, if_pos hc] at ht
        rw [ht] at hhead
        cases hhead
        exact absurd hkeeps (h before after hkeys (empties_iff.mpr hbefore))

/-! ## The loop -/

/-- The buffer holds the line. -/
structure Holds (s : LineState) (line : List (BitVec 8)) : Prop where
  i : s.i = line.length
  room : line.length < buflen
  byte : ∀ k (h : k < line.length), s.buf k = line.get ⟨k, h⟩
  stored : ∀ k ∈ s.stored, k < buflen

variable {s : LineState} {echoing : Int} {input : List Int}

theorem Holds.echo (h : Holds s line) (echoing c : Int) : Holds (s.echo echoing c) line := by
  unfold LineState.echo
  split
  · exact ⟨h.i, h.room, h.byte, h.stored⟩
  · exact h

theorem Holds.erase (h : Holds s line) : Holds { s with i := s.i - 1 } line.dropLast := by
  have hlen : line.dropLast.length = line.length - 1 := List.length_dropLast
  refine ⟨?_, ?_, fun k hk => ?_, h.stored⟩
  · rw [hlen, ← h.i]
  · have := h.room
    omega
  · rw [List.get_eq_getElem, List.getElem_dropLast]
    exact h.byte k (by omega)

theorem Holds.put (h : Holds s line) (c : BitVec 8) (hroom : line.length < buflen - 1) :
    Holds { s.put (c.toNat : Int) with i := s.i + 1 } (line ++ [c]) := by
  have hlen : (line ++ [c]).length = line.length + 1 := List.length_append
  refine ⟨?_, ?_, fun k hk => ?_, fun k hk => ?_⟩
  · rw [hlen, ← h.i]
  · rw [hlen]
    omega
  · change Function.update s.buf s.i (BitVec.ofInt 8 (c.toNat : Int)) k = _
    rw [List.get_eq_getElem, Function.update_apply, h.i]
    by_cases hlast : k = line.length
    · rw [if_pos hlast, List.getElem_append_right (Nat.le_of_eq hlast.symm), List.getElem_singleton,
        BitVec.ofInt_natCast, BitVec.ofNat_toNat, BitVec.setWidth_eq]
    · have hlt : k < line.length := by omega
      rw [if_neg hlast, List.getElem_append_left hlt]
      exact h.byte k hlt
  · rcases List.mem_cons.mp hk with rfl | hk
    · rw [h.i]
      exact h.room
    · exact h.stored k hk

theorem readlineLoop_cons (c : Int) : readlineLoop echoing (c :: input) s =
    if c < 0 then
      some ⟨if c ≠ -eEof then { s with printed := s.printed ++ [.readError c] } else s, false, input⟩
    else if (c = 0x08 ∨ c = 0x7f) ∧ 0 < s.i then
      readlineLoop echoing input { s.echo echoing 0x08 with i := (s.echo echoing 0x08).i - 1 }
    else if 0x20 ≤ c ∧ s.i < buflen - 1 then
      readlineLoop echoing input { (s.echo echoing c).put c with i := (s.echo echoing c).i + 1 }
    else if c = 0x0a ∨ c = 0x0d then some ⟨(s.echo echoing 0x0a).put 0, true, input⟩
    else readlineLoop echoing input s := rfl

/-- One character of the line. -/
theorem readlineLoop_key (echoing : Int) (input : List Int) (h : Holds s line) (hc : IsKey c) :
    ∃ s', Holds s' (typeLine line c) ∧
      readlineLoop echoing ((c.toNat : Int) :: input) s = readlineLoop echoing input s' := by
  have h08 : (c.toNat : Int) = 0x08 ↔ c = 0x08#8 := by bv_omega
  have h7f : (c.toNat : Int) = 0x7f ↔ c = 0x7f#8 := by bv_omega
  have h20 : (0x20 : Int) ≤ (c.toNat : Int) ↔ 0x20#8 ≤ c := by bv_omega
  have h0a : ¬ ((c.toNat : Int) = 0x0a ∨ (c.toNat : Int) = 0x0d) := by
    have h1 := hc.ne_newline
    have h2 := hc.ne_return
    bv_omega
  have hpos : 0 < s.i ↔ line ≠ [] := by
    rw [h.i]
    exact List.length_pos_iff
  have he : ((c.toNat : Int) = 0x08 ∨ (c.toNat : Int) = 0x7f) ∧ 0 < s.i ↔ Erases c ∧ line ≠ [] := by
    rw [h08, h7f, hpos]
    exact Iff.rfl
  rw [readlineLoop_cons, if_neg (by omega : ¬ (c.toNat : Int) < 0), if_neg h0a]
  unfold typeLine
  by_cases herase : Erases c ∧ line ≠ []
  · rw [if_pos herase, if_pos (he.mpr herase)]
    exact ⟨_, (h.echo echoing 0x08).erase, rfl⟩
  · have hput : (0x20 : Int) ≤ (c.toNat : Int) ∧ s.i < buflen - 1 ↔ 0x20#8 ≤ c ∧ line.length < buflen - 1 := by
      rw [h20, h.i]
    rw [if_neg herase, if_neg (fun h => herase (he.mp h))]
    by_cases hc : 0x20#8 ≤ c ∧ line.length < buflen - 1
    · rw [if_pos hc, if_pos (hput.mpr hc)]
      exact ⟨_, (h.echo echoing c.toNat).put c hc.2, rfl⟩
    · rw [if_neg hc, if_neg (fun h => hc (hput.mp h))]
      exact ⟨s, h, rfl⟩

theorem readlineLoop_keys (echoing : Int) (input : List Int) (h : Holds s line) (hkeys : ∀ c ∈ keys, IsKey c) :
    ∃ s', Holds s' (keys.foldl typeLine line) ∧
      readlineLoop echoing (keys.map (fun c => (c.toNat : Int)) ++ input) s = readlineLoop echoing input s' := by
  induction keys generalizing s line with
  | nil => exact ⟨s, h, rfl⟩
  | cons c keys ih =>
      obtain ⟨s1, h1, hstep⟩ := readlineLoop_key echoing
        (keys.map (fun c => (c.toNat : Int)) ++ input) h (hkeys c List.mem_cons_self)
      obtain ⟨s2, h2, hrun⟩ := ih h1 fun d hd => hkeys d (List.mem_cons_of_mem c hd)
      exact ⟨s2, h2, hstep.trans hrun⟩

/-- The end of the line. -/
theorem readlineLoop_end (echoing : Int) (input : List Int) (h : Holds s line) {e : Int} (he : e = 0x0a ∨ e = 0x0d) :
    ∃ s', readlineLoop echoing (e :: input) s = some ⟨s', true, input⟩ ∧ CString s'.buf 0 line ∧
      ∀ k ∈ s'.stored, k < buflen := by
  have h1 : ¬ e < 0 := by omega
  have h2 : ¬ ((e = 0x08 ∨ e = 0x7f) ∧ 0 < s.i) := by omega
  have h3 : ¬ (0x20 ≤ e ∧ s.i < buflen - 1) := by omega
  rw [readlineLoop_cons, if_neg h1, if_neg h2, if_neg h3, if_pos he]
  obtain ⟨hi, hroom, hbyte, hstored⟩ := h.echo echoing 0x0a
  refine ⟨_, rfl, ⟨fun k hk => ?_, ?_⟩, fun k hk => ?_⟩
  · rw [Nat.zero_add]
    refine (Function.update_of_ne ?_ _ _).trans (hbyte k hk)
    omega
  · rw [Nat.zero_add, ← hi]
    exact Function.update_self _ _ _
  · rcases List.mem_cons.mp hk with rfl | hk
    · rw [hi]
      exact hroom
    · exact hstored k hk

theorem mem_typeLine (h : d ∈ typeLine line c) : d ∈ line ∨ d = c := by
  unfold typeLine at h
  split at h
  · exact Or.inl (List.dropLast_subset _ h)
  · split at h
    · exact (List.mem_append.mp h).imp_right List.mem_singleton.mp
    · exact Or.inl h

theorem mem_editLine (h : d ∈ editLine line c) : d ∈ line ∨ d = c := by
  unfold editLine at h
  split at h
  · exact Or.inl (List.dropLast_subset _ h)
  · split at h
    · exact (List.mem_append.mp h).imp_right List.mem_singleton.mp
    · exact Or.inl h

/-- What is in the line has been typed. -/
theorem mem_foldl {f : List (BitVec 8) → BitVec 8 → List (BitVec 8)}
    (hf : ∀ line c d, d ∈ f line c → d ∈ line ∨ d = c) (h : d ∈ keys.foldl f line) : d ∈ line ∨ d ∈ keys := by
  induction keys generalizing line with
  | nil => exact Or.inl h
  | cons c keys ih =>
      rcases ih h with hd | hd
      · rcases hf line c d hd with hd | rfl
        · exact Or.inl hd
        · exact Or.inr List.mem_cons_self
      · exact Or.inr (List.mem_cons_of_mem c hd)

end

/-- `readline` stays in its buffer, and the string that it returns is the line as it should be if and
only if each DEL on an empty line is erased again. -/
theorem readline_line_iff (prompt : Option String) (echoing : Int) (buf : Mem) {keys : List (BitVec 8)} {e : Int}
    (rest : List Int) (hkeys : ∀ c ∈ keys, IsKey c) (he : e = 0x0a ∨ e = 0x0d) :
    ∃ s, readline prompt echoing buf (keys.map (fun c => (c.toNat : Int)) ++ e :: rest) = some ⟨s, true, rest⟩ ∧
      (∀ k ∈ s.stored, k < buflen) ∧ (CString s.buf 0 (keys.foldl editLine []) ↔ DelsErased keys) := by
  have hstart : Holds ⟨0, buf, prompt.toList.map Printed.prompt, []⟩ [] :=
    ⟨rfl, by decide, fun k hk => absurd hk (Nat.not_lt_zero k), fun k hk => absurd hk List.not_mem_nil⟩
  obtain ⟨s1, h1, hkeysrun⟩ := readlineLoop_keys echoing (e :: rest) hstart hkeys
  obtain ⟨s2, hend, hline, hstored⟩ := readlineLoop_end echoing rest h1 he
  refine ⟨s2, hkeysrun.trans hend, hstored, ?_⟩
  rw [← typed_eq_iff]
  constructor
  · intro hs
    refine hline.unique hs (fun h0 => ?_) (fun h0 => ?_)
    · exact (mem_foldl (fun _ _ _ => mem_typeLine) h0).elim List.not_mem_nil fun hk => (hkeys _ hk).ne_zero rfl
    · exact (mem_foldl (fun _ _ _ => mem_editLine) h0).elim List.not_mem_nil fun hk => (hkeys _ hk).ne_zero rfl
  · intro heq
    rw [← heq]
    exact hline

/-- An `a` that is erased. -/
theorem readline_line_iff_erased : ∃ s,
    readline none 1 (fun _ => 0#8) [0x61, 0x08, 0x0a] = some ⟨s, true, []⟩ ∧ (∀ k ∈ s.stored, k < buflen) ∧
      (CString s.buf 0 ([0x61#8, 0x08#8].foldl editLine []) ↔ DelsErased [0x61#8, 0x08#8]) := by
  refine @readline_line_iff none 1 (fun _ => 0#8) [0x61#8, 0x08#8] 0x0a [] (fun c hc => ?_) (Or.inl rfl)
  rcases List.mem_cons.mp hc with rfl | hc
  · exact ⟨by decide, by decide, by decide⟩
  · rw [List.mem_singleton.mp hc]
    exact ⟨by decide, by decide, by decide⟩

/-- A DEL on an empty line, and the end of the line: the line is not empty. -/
theorem readline_del : ∃ s, readline none 0 (fun _ => 0#8) [0x7f, 0x0a] = some ⟨s, true, []⟩ ∧
    CString s.buf 0 [0x7f#8] ∧ ¬ CString s.buf 0 ([0x7f#8].foldl editLine []) := by
  refine ⟨_, rfl, ⟨fun k hk => ?_, rfl⟩, fun h => ?_⟩
  · obtain rfl : k = 0 := Nat.lt_one_iff.mp hk
    rfl
  · have hzero := h.zero
    revert hzero
    decide

/- A second DEL erases the first one. -/
example : DelsErased [0x7f#8, 0x7f#8] := (typed_eq_iff _).mp (by decide)

end Jos.User
