import Jos.User.Tokens

/-!
# The command line of the shell

`runcmd` of `user/sh.c`, up to the call of `spawn`. It collects the words of a command in an array on
its stack and copies the name of the command into a buffer there. The array has no room for the null
pointer behind sixteen words, and the buffer none for the name of a command that is as long as a whole
line.

Main results:
* `runcmd_in_bounds_iff`: the lines that fit;
* `runcmd_out_of_bounds`: two that do not.
-/

namespace Jos.User

open Jos.Lib

/-- `MAXARGS` -/
def maxargs : Nat := 16

/-- `BUFSIZ` -/
def bufsiz : Nat := 1024

/-- What the calls of one iteration return: `open`, `pipe` with its two descriptors, and `fork`. -/
structure Answer where
  fd : Int
  pipe : Int
  p0 : Int
  p1 : Int
  fork : Int

/-- What `runcmd` prints and calls. -/
inductive ShellCall
  | message (text : String)
  | openFile (name mode : Nat)
  | openFailed (purpose : String) (name : Nat) (r : Int)
  | dup (oldfd newfd : Int)
  | close (fd : Int)
  | pipe
  | fork
  | failed (what : String) (r : Int)
  | badToken (c : Int)
  deriving DecidableEq

/-- The local variables of `runcmd` up to the label `runit`, what it has called, and where it has stored
something in `argv`. -/
structure Shell where
  g : Gettoken
  t : Nat
  argc : Nat
  argv : Nat → Nat
  stored : List Nat
  pipeChild : Int
  calls : List ShellCall

/-- What follows an iteration. -/
inductive Stepped
  | next (s : Shell)
  | runit (s : Shell)
  | exited (s : Shell)
  | panicked (s : Shell)

def Shell.call (s : Shell) (l : List ShellCall) : Shell := { s with calls := s.calls ++ l }

/-- `gettoken(0, &t)` -/
def Shell.gettoken (s : Shell) : Option (Int × Shell) :=
  (Jos.User.gettoken s.g 0).map fun (c, t, g) => (c, { s with g := g, t := t.getD s.t })

/-- `argv[argc] = t` -/
def Shell.putArg (s : Shell) (t : Nat) : Shell :=
  { s with argv := Function.update s.argv s.argc t, stored := s.argc :: s.stored }

/-- `if (fd != std) dup(fd, std), close(fd)` -/
def Shell.moveFd (s : Shell) (fd std : Int) : Shell :=
  if fd ≠ std then s.call [.dup fd std, .close fd] else s

/-- The cases of `<` and `>`: the file of the next word becomes the standard input or output. -/
def Shell.redirect (s : Shell) (a : Answer) (symbol purpose : String) (mode : Nat) (std : Int) : Option Stepped :=
  s.gettoken.map fun (c, s) =>
    if c ≠ 0x77 then .exited (s.call [.message ("syntax error: " ++ symbol ++ " not followed by word\n")])
    else if a.fd < 0 then .exited (s.call [.openFile s.t mode, .openFailed purpose s.t a.fd])
    else .next ((s.call [.openFile s.t mode]).moveFd a.fd std)

/-- The case of `|`. -/
def Shell.pipe (s : Shell) (a : Answer) : Stepped :=
  let s := s.call [.pipe]
  if a.pipe < 0 then .exited (s.call [.failed "pipe" a.pipe])
  else
    let s := s.call [.fork]
    if a.fork < 0 then .exited (s.call [.failed "fork" a.fork])
    else if a.fork = 0 then .next { (s.moveFd a.p0 0).call [.close a.p1] with argc := 0 }
    else .runit ({ s with pipeChild := a.fork }.moveFd a.p1 1 |>.call [.close a.p0])

/-- One iteration of the loop of `runcmd`. -/
def Shell.step (s : Shell) (a : Answer) : Option Stepped :=
  s.gettoken.bind fun (c, s) =>
    if c = 0x77 then
      some (if s.argc = maxargs then .exited (s.call [.message "too many arguments\n"])
        else .next { s.putArg s.t with argc := s.argc + 1 })
    else if c = 0x3c then s.redirect a "<" "read" 0x0000 0
    else if c = 0x3e then s.redirect a ">" "write" 0x0301 1
    else if c = 0x7c then some (s.pipe a)
    else if c = 0 then some (.runit s)
    else some (.panicked (s.call [.badToken c]))

inductive Ended
  | returned
  | exited
  | panicked
  | spawned (prog : Nat)
  deriving DecidableEq

/-- What is left at the end: `argv0buf`, and where something has been stored in it. -/
structure Ran where
  ended : Ended
  shell : Shell
  buf : Mem
  bufStored : List Nat

/-- `strcpy` into `argv0buf`, from the index `dst` on. -/
def copyName (m : Mem) : Nat → Nat → Nat → Mem → List Nat → Option (Mem × List Nat)
  | 0, _, _, _, _ => none
  | fuel + 1, dst, src, buf, stored =>
      let buf := Function.update buf dst (m src)
      if m src ≠ 0#8 then copyName m fuel (dst + 1) (src + 1) buf (dst :: stored)
      else some (buf, dst :: stored)

/-- From the label `runit` to the call of `spawn`; `argv0buf` is the address of the buffer. -/
def Shell.runit (s : Shell) (argv0buf : Nat) (buf : Mem) : Option Ran :=
  if s.argc = 0 then some ⟨.returned, s, buf, []⟩
  else if s.g.mem (s.argv 0) ≠ 0x2f#8 then
    (copyName s.g.mem (2 ^ 32) 1 (s.argv 0) (Function.update buf 0 0x2f#8) [0]).map fun (buf, bufStored) =>
      let s := { s with argv := Function.update s.argv 0 argv0buf, stored := 0 :: s.stored }
      let s := s.putArg 0
      ⟨.spawned (s.argv 0), s, buf, bufStored⟩
  else
    let s := s.putArg 0
    some ⟨.spawned (s.argv 0), s, buf, []⟩

/-- The loop of `runcmd`, and what follows it. -/
def Shell.run (argv0buf : Nat) (buf : Mem) : Nat → (Nat → Answer) → Shell → Option Ran
  | 0, _, _ => none
  | fuel + 1, answers, s =>
      (s.step (answers 0)).bind fun
        | .next s => Shell.run argv0buf buf fuel (fun k => answers (k + 1)) s
        | .runit s => s.runit argv0buf buf
        | .exited s => some ⟨.exited, s, buf, []⟩
        | .panicked s => some ⟨.panicked, s, buf, []⟩

/-- `runcmd`, called with the line at `line`. The local variables have some values first. -/
def runcmd (g : Gettoken) (argv : Nat → Nat) (t argv0buf : Nat) (buf : Mem) (line : Nat) (answers : Nat → Answer) :
    Option Ran :=
  (gettoken g line).bind fun x =>
    Shell.run argv0buf buf (2 ^ 32) answers ⟨x.2.2, t, 0, argv, [], 0, []⟩

/-- Nothing has been stored outside of the array and the buffer. -/
structure Ran.InBounds (r : Ran) : Prop where
  argv : ∀ k ∈ r.shell.stored, k < maxargs
  buf : ∀ k ∈ r.bufStored, k < bufsiz

/-! ## The commands of a line -/

/-- The words of each command that may be run: up to a syntax error, or to a word that is too many.
`words` are those of the first command that have been read. -/
def commands (words : List (List (BitVec 8))) : List Token → List (List (List (BitVec 8)))
  | [] => [words]
  | .word w :: tokens => if words.length = maxargs then [] else commands (words ++ [w]) tokens
  | .symbol c :: tokens =>
      if c = 0x7c#8 then words :: commands [] tokens
      else if c = 0x3c#8 ∨ c = 0x3e#8 then
        match tokens with
        | .word _ :: tokens => commands words tokens
        | _ => []
      else []

/-- There is room for the null pointer, and for the name of the command with its slash. -/
structure CommandFits (words : List (List (BitVec 8))) : Prop where
  argv : words.length ≠ maxargs
  name : ∀ w, words.head? = some w → w.head? = some 0x2f#8 ∨ w.length + 1 < bufsiz

/-- What the lexer makes of a line. -/
def Token.Within (line : List (BitVec 8)) : Token → Prop
  | .symbol c => c ∈ symbols
  | .word w => w.length ≤ line.length ∧ ∀ c ∈ w, c ∈ line

section

variable {line w : List (BitVec 8)} {words : List (List (BitVec 8))} {token : Token} {tokens : List Token}
  {g : Gettoken} {s s' : Shell} {a : Answer} {st : Stepped} {c : BitVec 8} {l : List ShellCall} {m buf : Mem}

/-! ## One iteration -/

theorem lex_length (line : List (BitVec 8)) : (lex line).length ≤ line.length := by
  induction line using lex.induct with
  | case1 => exact Nat.le_of_eq (congrArg List.length lex_nil)
  | case2 c l hc ih =>
      rw [lex_space hc]
      exact Nat.le_succ_of_le ih
  | case3 c l _ hc ih =>
      rw [lex_symbol hc]
      exact Nat.succ_le_succ ih
  | case4 c l hspace hc ih =>
      have hchar : wordChar c = true := decide_eq_true ⟨hspace, hc⟩
      rw [lex_word hchar, List.dropWhile_cons_of_pos hchar]
      exact Nat.succ_le_succ (ih.trans (List.length_dropWhile_le wordChar l))

theorem Token.Within.of_suffix {line' : List (BitVec 8)} (h : token.Within line') (hs : line' <:+ line) :
    token.Within line := by
  cases token with
  | symbol c => exact h
  | word w => exact ⟨h.1.trans hs.length_le, fun c hc => hs.subset (h.2 c hc)⟩

theorem lex_within (line : List (BitVec 8)) : ∀ token ∈ lex line, token.Within line := by
  induction line using lex.induct with
  | case1 =>
      intro token htoken
      rw [lex_nil] at htoken
      cases htoken
  | case2 c l hc ih =>
      intro token htoken
      rw [lex_space hc] at htoken
      exact (ih token htoken).of_suffix (List.suffix_cons c l)
  | case3 c l _ hc ih =>
      intro token htoken
      rw [lex_symbol hc] at htoken
      rcases List.mem_cons.mp htoken with rfl | htoken
      · exact hc
      · exact (ih token htoken).of_suffix (List.suffix_cons c l)
  | case4 c l hspace hc ih =>
      intro token htoken
      have hchar : wordChar c = true := decide_eq_true ⟨hspace, hc⟩
      rw [lex_word hchar, List.dropWhile_cons_of_pos hchar] at htoken
      rcases List.mem_cons.mp htoken with rfl | htoken
      · have hword := List.takeWhile_prefix (l := c :: l) wordChar
        exact ⟨hword.length_le, fun d hd => hword.subset hd⟩
      · exact (ih token htoken).of_suffix ((List.dropWhile_suffix wordChar).trans (List.suffix_cons c l))

def Token.code : Token → Int
  | .symbol c => c.toInt
  | .word _ => 0x77

theorem Pending.nc (h : Pending g (token :: tokens)) : g.nc = token.code := by
  cases token with
  | symbol c => exact h.1
  | word w => exact h.1

/-- The word is in memory, at `t`, and it is not written any more. -/
def Cut (g : Gettoken) (t : Nat) (w : List (BitVec 8)) : Prop :=
  CString g.mem t w ∧ (t + w.length < g.np2 ∨ g.np2 = 0)

/-- The words of the command have been stored, and these tokens are left. -/
structure Ready (line : List (BitVec 8)) (s : Shell) (words : List (List (BitVec 8))) (tokens : List Token) :
    Prop where
  pending : Pending s.g tokens
  within : ∀ token ∈ tokens, token.Within line
  argc : s.argc = words.length
  room : words.length ≤ maxargs
  stored : ∀ k ∈ s.stored, k < maxargs
  first : ∀ w, words.head? = some w → (Token.word w).Within line ∧ Cut s.g (s.argv 0) w

theorem Ready.call (h : Ready line s words tokens) (l : List ShellCall) : Ready line (s.call l) words tokens :=
  ⟨h.pending, h.within, h.argc, h.room, h.stored, h.first⟩

theorem Ready.moveFd (h : Ready line s words tokens) (fd std : Int) :
    Ready line (s.moveFd fd std) words tokens := by
  unfold Shell.moveFd
  split
  · exact h.call _
  · exact h

/-- The next token. -/
theorem Ready.gettoken (h : Ready line s words (token :: tokens)) :
    ∃ s', s.gettoken = some (token.code, s') ∧ Ready line s' words tokens ∧
      ∀ w, token = .word w → Cut s'.g s'.t w := by
  obtain ⟨t, g', hcall, hpending, hreturn, hkeep, hne, hbehind, hword⟩ := gettoken_next h.pending
  unfold Shell.gettoken
  rw [hcall, h.pending.nc]
  refine ⟨_, rfl, ⟨hpending, fun x hx => h.within x (List.mem_cons_of_mem _ hx), h.argc, h.room, h.stored,
    fun w hw => ?_⟩, fun w hw => ?_⟩
  · obtain ⟨hin, hstr, hclosed⟩ := h.first w hw
    have hlt := hclosed.resolve_right hne
    refine ⟨hin, hstr.keep fun x _ hx => hkeep x (by omega), ?_⟩
    dsimp only
    omega
  · subst hw
    obtain ⟨-, t', ht, hstr⟩ := hreturn
    cases ht
    refine ⟨hstr, ?_⟩
    dsimp only [Option.getD_some]
    rw [hword w rfl]
    exact hbehind

theorem Ready.gettoken_end (h : Ready line s words []) : ∃ s', s.gettoken = some (0, s') ∧ Ready line s' words [] := by
  obtain ⟨t, g', hcall, hpending, hmem⟩ := Jos.User.gettoken_end h.pending
  unfold Shell.gettoken
  rw [hcall]
  refine ⟨_, rfl, hpending, h.within, h.argc, h.room, h.stored, fun w hw => ?_⟩
  obtain ⟨hin, hstr, -⟩ := h.first w hw
  refine ⟨hin, ?_, Or.inr hpending.2⟩
  dsimp only
  rw [hmem]
  exact hstr

/-- One more word. -/
theorem Ready.putArg (h : Ready line s words tokens) (hin : (Token.word w).Within line) (hw : Cut s.g s.t w)
    (hroom : words.length < maxargs) :
    Ready line { s.putArg s.t with argc := s.argc + 1 } (words ++ [w]) tokens := by
  have hlen : (words ++ [w]).length = words.length + 1 := List.length_append
  refine ⟨h.pending, h.within, ?_, ?_, fun k hk => ?_, fun v hv => ?_⟩
  · rw [hlen, ← h.argc]
  · omega
  · rcases List.mem_cons.mp hk with rfl | hk
    · rw [h.argc]
      exact hroom
    · exact h.stored k hk
  · change (Token.word v).Within line ∧ Cut s.g (Function.update s.argv s.argc s.t 0) v
    cases words with
    | nil =>
        cases hv
        rw [h.argc, List.length_nil, Function.update_self]
        exact ⟨hin, hw⟩
    | cons u words =>
        rw [h.argc, List.length_cons, Function.update_of_ne (Ne.symm (Nat.succ_ne_zero _))]
        exact h.first v hv

/-- What an iteration does with the next tokens. -/
inductive Follows (line : List (BitVec 8)) (words : List (List (BitVec 8))) (a : Answer) :
    List Token → Stepped → Prop
  | done {s : Shell} (h : Ready line s words []) : Follows line words a [] (.runit s)
  | word {w : List (BitVec 8)} {tokens : List Token} {s : Shell} (hroom : words.length < maxargs)
      (h : Ready line s (words ++ [w]) tokens) : Follows line words a (.word w :: tokens) (.next s)
  | tooMany {w : List (BitVec 8)} {tokens : List Token} {s : Shell} (hroom : words.length = maxargs)
      (h : ∀ k ∈ s.stored, k < maxargs) : Follows line words a (.word w :: tokens) (.exited s)
  | redirect {c : BitVec 8} {w : List (BitVec 8)} {tokens : List Token} {s : Shell} (hc : c = 0x3c#8 ∨ c = 0x3e#8)
      (hfd : 0 ≤ a.fd) (h : Ready line s words tokens) :
      Follows line words a (.symbol c :: .word w :: tokens) (.next s)
  | notOpened {c : BitVec 8} {w : List (BitVec 8)} {tokens : List Token} {s : Shell} (hc : c = 0x3c#8 ∨ c = 0x3e#8)
      (hfd : a.fd < 0) (h : ∀ k ∈ s.stored, k < maxargs) :
      Follows line words a (.symbol c :: .word w :: tokens) (.exited s)
  | syntaxError {c : BitVec 8} {tokens : List Token} {s : Shell} (hc : c = 0x3c#8 ∨ c = 0x3e#8)
      (htokens : ∀ w tokens', tokens ≠ .word w :: tokens') (h : ∀ k ∈ s.stored, k < maxargs) :
      Follows line words a (.symbol c :: tokens) (.exited s)
  | child {tokens : List Token} {s : Shell} (hpipe : 0 ≤ a.pipe) (hfork : a.fork = 0) (h : Ready line s [] tokens) :
      Follows line words a (.symbol 0x7c#8 :: tokens) (.next s)
  | parent {tokens : List Token} {s : Shell} (hpipe : 0 ≤ a.pipe) (hfork : 0 < a.fork)
      (h : Ready line s words tokens) : Follows line words a (.symbol 0x7c#8 :: tokens) (.runit s)
  | noPipe {tokens : List Token} {s : Shell} (hfail : a.pipe < 0 ∨ a.fork < 0) (h : ∀ k ∈ s.stored, k < maxargs) :
      Follows line words a (.symbol 0x7c#8 :: tokens) (.exited s)
  | badToken {c : BitVec 8} {tokens : List Token} {s : Shell} (hc : c ≠ 0x7c#8 ∧ c ≠ 0x3c#8 ∧ c ≠ 0x3e#8)
      (h : ∀ k ∈ s.stored, k < maxargs) : Follows line words a (.symbol c :: tokens) (.panicked s)

/-- No symbol is taken for a word or for the end, nor one symbol for another. -/
theorem symbol_code : ∀ c ∈ symbols, c.toInt ≠ 0x77 ∧ c.toInt ≠ 0 ∧ (c.toInt = 0x3c ↔ c = 0x3c#8) ∧
    (c.toInt = 0x3e ↔ c = 0x3e#8) ∧ (c.toInt = 0x7c ↔ c = 0x7c#8) := by
  simp [symbols]

theorem redirect_ok (h : Ready line s words tokens) (a : Answer) (symbol purpose : String) (mode : Nat) (std : Int)
    (hc : c = 0x3c#8 ∨ c = 0x3e#8) : ∃ st, s.redirect a symbol purpose mode std = some st ∧
      Follows line words a (.symbol c :: tokens) st := by
  unfold Shell.redirect
  cases tokens with
  | nil =>
      obtain ⟨s1, hget, h1⟩ := h.gettoken_end
      rw [hget]
      exact ⟨_, rfl, .syntaxError hc (fun w tokens' heq => by cases heq) h1.stored⟩
  | cons token tokens =>
      obtain ⟨s1, hget, h1, -⟩ := h.gettoken
      rw [hget, Option.map_some]
      dsimp only
      cases token with
      | symbol d =>
          have hne : (Token.symbol d).code ≠ 0x77 := (symbol_code d (h.within _ List.mem_cons_self)).1
          rw [if_pos hne]
          exact ⟨_, rfl, .syntaxError hc (fun w tokens' heq => by cases heq) h1.stored⟩
      | word w =>
          rw [if_neg (fun h => h rfl)]
          split
          · rename_i hfd
            exact ⟨_, rfl, .notOpened hc hfd h1.stored⟩
          · rename_i hfd
            exact ⟨_, rfl, .redirect hc (Int.not_lt.mp hfd) ((h1.call _).moveFd _ _)⟩

theorem pipe_ok (h : Ready line s words tokens) (a : Answer) :
    Follows line words a (.symbol 0x7c#8 :: tokens) (s.pipe a) := by
  unfold Shell.pipe
  dsimp only
  split
  · rename_i hpipe
    exact .noPipe (Or.inl hpipe) h.stored
  · rename_i hpipe
    have hpipe := Int.not_lt.mp hpipe
    split
    · rename_i hfork
      exact .noPipe (Or.inr hfork) h.stored
    · rename_i hneg
      split
      · rename_i hfork
        have h1 := ((((h.call [.pipe]).call [.fork]).moveFd a.p0 0).call [.close a.p1])
        refine .child hpipe hfork ⟨h1.pending, h1.within, rfl, Nat.zero_le _, h1.stored, fun w hw => ?_⟩
        cases hw
      · rename_i hfork
        have h1 := (h.call [.pipe]).call [.fork]
        have h2 : Ready line { (s.call [.pipe]).call [.fork] with pipeChild := a.fork } words tokens :=
          ⟨h1.pending, h1.within, h1.argc, h1.room, h1.stored, h1.first⟩
        exact .parent hpipe (by omega) ((h2.moveFd a.p1 1).call [.close a.p0])

theorem step_ok (h : Ready line s words tokens) (a : Answer) :
    ∃ st, s.step a = some st ∧ Follows line words a tokens st := by
  unfold Shell.step
  cases tokens with
  | nil =>
      obtain ⟨s1, hget, h1⟩ := h.gettoken_end
      rw [hget]
      exact ⟨_, rfl, .done h1⟩
  | cons token tokens =>
      obtain ⟨s1, hget, h1, hcut⟩ := h.gettoken
      have hin := h.within _ List.mem_cons_self
      rw [hget, Option.bind_some]
      cases token with
      | word w =>
          dsimp only [Token.code]
          rw [if_pos rfl, h1.argc]
          refine ⟨_, rfl, ?_⟩
          split
          · rename_i hroom
            exact .tooMany hroom h1.stored
          · rename_i hroom
            have hroom : words.length < maxargs := Nat.lt_of_le_of_ne h1.room hroom
            rw [← h1.argc]
            exact .word hroom (h1.putArg hin (hcut w rfl) hroom)
      | symbol c =>
          obtain ⟨hw, h0, hlt, hgt, hpipe⟩ := symbol_code c hin
          dsimp only [Token.code]
          rw [if_neg hw]
          by_cases hc1 : c = 0x3c#8
          · rw [if_pos (hlt.mpr hc1)]
            exact redirect_ok h1 a _ _ _ _ (Or.inl hc1)
          · rw [if_neg (fun h => hc1 (hlt.mp h))]
            by_cases hc2 : c = 0x3e#8
            · rw [if_pos (hgt.mpr hc2)]
              exact redirect_ok h1 a _ _ _ _ (Or.inr hc2)
            · rw [if_neg (fun h => hc2 (hgt.mp h))]
              by_cases hc3 : c = 0x7c#8
              · rw [if_pos (hpipe.mpr hc3)]
                subst hc3
                exact ⟨_, rfl, pipe_ok h1 a⟩
              · rw [if_neg (fun h => hc3 (hpipe.mp h)), if_neg h0]
                exact ⟨_, rfl, .badToken ⟨hc3, hc1, hc2⟩ h1.stored⟩

/-! ## The end -/

theorem copyName_ok {fuel dst src : Nat} {stored : List Nat} (h : CString m src w) (hnz : 0#8 ∉ w)
    (hfuel : w.length < fuel) : ∃ buf' stored', copyName m fuel dst src buf stored = some (buf', stored') ∧
      ∀ k, k ∈ stored' ↔ k ∈ stored ∨ dst ≤ k ∧ k ≤ dst + w.length := by
  induction w generalizing fuel dst src buf stored with
  | nil =>
      cases fuel with
      | zero => exact absurd hfuel (Nat.not_lt_zero _)
      | succ fuel =>
          have hzero : m src = 0#8 := h.zero
          refine ⟨Function.update buf dst (m src), dst :: stored, ?_, fun k => ?_⟩
          · unfold copyName
            rw [if_neg (fun hne => hne hzero)]
          · rw [List.mem_cons, List.length_nil]
            by_cases hk : k ∈ stored
            · exact iff_of_true (Or.inr hk) (Or.inl hk)
            · simp only [hk, or_false, false_or]
              omega
  | cons c w ih =>
      cases fuel with
      | zero => exact absurd hfuel (Nat.not_lt_zero _)
      | succ fuel =>
          have hne : m src ≠ 0#8 := by
            rw [h.head]
            exact fun h0 => hnz (List.mem_cons.mpr (Or.inl h0.symm))
          obtain ⟨buf', stored', hrun, hmem⟩ := @ih (Function.update buf dst (m src)) fuel (dst + 1) (src + 1)
            (dst :: stored) h.tail (List.not_mem_of_not_mem_cons hnz) (Nat.lt_of_succ_lt_succ hfuel)
          refine ⟨buf', stored', ?_, fun k => ?_⟩
          · unfold copyName
            rw [if_pos hne]
            exact hrun
          · rw [hmem, List.mem_cons, List.length_cons]
            by_cases hk : k ∈ stored
            · exact iff_of_true (Or.inl (Or.inr hk)) (Or.inl hk)
            · simp only [hk, or_false, false_or]
              omega

/-- A line of the shell. -/
structure ShellLine (line : List (BitVec 8)) : Prop where
  nonzero : 0#8 ∉ line
  bound : line.length < 2 ^ 32

/-- The command is run within the bounds if and only if it fits. -/
theorem runit_ok (hline : ShellLine line) (h : Ready line s words tokens) (argv0buf : Nat) (buf : Mem) :
    ∃ ran, s.runit argv0buf buf = some ran ∧ (ran.InBounds ↔ CommandFits words) := by
  have hargc := h.argc
  unfold Shell.runit
  cases words with
  | nil =>
      rw [List.length_nil] at hargc
      rw [if_pos hargc]
      refine ⟨_, rfl, iff_of_true ⟨h.stored, fun k hk => ?_⟩ ⟨by decide, fun w hw => ?_⟩⟩
      · cases hk
      · cases hw
  | cons w words =>
      obtain ⟨hin, hstr, -⟩ := h.first w rfl
      have hroom := h.room
      rw [List.length_cons] at hargc
      have hfits : CommandFits (w :: words) ↔ s.argc < maxargs ∧ (w.head? = some 0x2f#8 ∨ w.length + 1 < bufsiz) := by
        rw [hargc]
        rw [List.length_cons] at hroom
        constructor
        · rintro ⟨h1, h2⟩
          rw [List.length_cons] at h1
          exact ⟨by omega, h2 w rfl⟩
        · rintro ⟨h1, h2⟩
          refine ⟨?_, fun v hv => ?_⟩
          · rw [List.length_cons]
            omega
          · cases hv
            exact h2
      have hslash : s.g.mem (s.argv 0) = 0x2f#8 ↔ w.head? = some 0x2f#8 := by
        cases w with
        | nil =>
            have hzero : s.g.mem (s.argv 0) = 0#8 := hstr.zero
            rw [hzero]
            exact iff_of_false (by decide) (by decide)
        | cons c w =>
            rw [hstr.head, List.head?_cons, Option.some_inj]
      rw [if_neg (by omega), hfits]
      by_cases hs : w.head? = some 0x2f#8
      · rw [if_neg (fun hne => hne (hslash.mpr hs))]
        refine ⟨_, rfl, ⟨fun hb => ⟨hb.argv s.argc List.mem_cons_self, Or.inl hs⟩,
          fun hf => ⟨fun k hk => ?_, fun k hk => ?_⟩⟩⟩
        · rcases List.mem_cons.mp hk with rfl | hk
          · exact hf.1
          · exact h.stored k hk
        · cases hk
      · have hnz : 0#8 ∉ w := fun h0 => hline.nonzero (hin.2 _ h0)
        have hfuel : w.length < 2 ^ 32 := Nat.lt_of_le_of_lt hin.1 hline.bound
        obtain ⟨buf', stored', hcopy, hmem⟩ :=
          @copyName_ok w s.g.mem (Function.update buf 0 0x2f#8) (2 ^ 32) 1 (s.argv 0) [0] hstr hnz hfuel
        rw [if_pos (fun heq => hs (hslash.mp heq)), hcopy]
        refine ⟨_, rfl, ⟨fun hb => ⟨hb.argv s.argc List.mem_cons_self, Or.inr ?_⟩,
          fun hf => ⟨fun k hk => ?_, fun k hk => ?_⟩⟩⟩
        · have := hb.buf (1 + w.length) ((hmem _).mpr (Or.inr (by omega)))
          omega
        · rcases List.mem_cons.mp hk with rfl | hk
          · exact hf.1
          · rcases List.mem_cons.mp hk with rfl | hk
            · decide
            · exact h.stored k hk
        · have hlen := hf.2.resolve_left hs
          rcases (hmem k).mp hk with hk | hk
          · rw [List.mem_singleton.mp hk]
            decide
          · omega

theorem redirect_ne_pipe (hc : c = 0x3c#8 ∨ c = 0x3e#8) : c ≠ 0x7c#8 := by
  rcases hc with rfl | rfl
  · decide
  · decide

theorem commands_redirect (hc : c = 0x3c#8 ∨ c = 0x3e#8) :
    commands words (.symbol c :: .word w :: tokens) = commands words tokens :=
  (if_neg (redirect_ne_pipe hc)).trans (if_pos hc)

theorem commands_pipe : commands words (.symbol 0x7c#8 :: tokens) = words :: commands [] tokens := by
  conv =>
    lhs
    unfold commands
  rw [if_pos rfl]

theorem commands_error (hc : c ≠ 0x7c#8) (h : c = 0x3c#8 ∨ c = 0x3e#8 → ∀ w tokens', tokens ≠ .word w :: tokens') :
    commands words (.symbol c :: tokens) = [] := by
  unfold commands
  rw [if_neg hc]
  split
  · rename_i hc'
    cases tokens with
    | nil => rfl
    | cons token tokens =>
        cases token with
        | symbol d => rfl
        | word w => exact absurd rfl (h hc' w tokens)
  · rfl

theorem commands_word (h : words.length < maxargs) :
    commands words (.word w :: tokens) = commands (words ++ [w]) tokens := by
  rw [commands, if_neg (Nat.ne_of_lt h)]

theorem commands_full (h : words.length = maxargs) : commands words (.word w :: tokens) = [] := by
  rw [commands, if_pos h]

/-- Every run ends. If all commands fit, nothing is stored out of bounds. -/
theorem run_fits (hline : ShellLine line) (argv0buf : Nat) (buf : Mem) {fuel : Nat} (h : Ready line s words tokens)
    (hfuel : tokens.length < fuel) (answers : Nat → Answer) : ∃ ran, s.run argv0buf buf fuel answers = some ran ∧
      ((∀ ws ∈ commands words tokens, CommandFits ws) → ran.InBounds) := by
  induction fuel generalizing s words tokens answers with
  | zero => exact absurd hfuel (Nat.not_lt_zero _)
  | succ fuel ih =>
      have hout : ∀ (e : Ended) (s' : Shell), (∀ k ∈ s'.stored, k < maxargs) →
          (⟨e, s', buf, []⟩ : Ran).InBounds := fun e s' h => ⟨h, fun k hk => absurd hk List.not_mem_nil⟩
      obtain ⟨st, hstep, hst⟩ := step_ok h (answers 0)
      unfold Shell.run
      rw [hstep, Option.bind_some]
      cases hst with
      | done h1 =>
          obtain ⟨ran, hran, hiff⟩ := runit_ok hline h1 argv0buf buf
          exact ⟨ran, hran, fun hall => hiff.mpr (hall words List.mem_cons_self)⟩
      | word hroom h1 =>
          rw [commands_word hroom]
          exact ih h1 (Nat.lt_of_succ_lt_succ hfuel) _
      | tooMany _ h1 => exact ⟨_, rfl, fun _ => hout _ _ h1⟩
      | redirect hc _ h1 =>
          rw [commands_redirect hc]
          rw [List.length_cons, List.length_cons] at hfuel
          exact ih h1 (by omega) _
      | notOpened _ _ h1 => exact ⟨_, rfl, fun _ => hout _ _ h1⟩
      | syntaxError _ _ h1 => exact ⟨_, rfl, fun _ => hout _ _ h1⟩
      | child _ _ h1 =>
          rw [commands_pipe]
          obtain ⟨ran, hran, hfits⟩ := ih h1 (Nat.lt_of_succ_lt_succ hfuel) (fun k => answers (k + 1))
          exact ⟨ran, hran, fun hall => hfits fun ws hws => hall ws (List.mem_cons_of_mem _ hws)⟩
      | parent _ _ h1 =>
          rw [commands_pipe]
          obtain ⟨ran, hran, hiff⟩ := runit_ok hline h1 argv0buf buf
          exact ⟨ran, hran, fun hall => hiff.mpr (hall words List.mem_cons_self)⟩
      | noPipe _ h1 => exact ⟨_, rfl, fun _ => hout _ _ h1⟩
      | badToken _ h1 => exact ⟨_, rfl, fun _ => hout _ _ h1⟩

/-- For each command of the line there are answers of the calls with which it is run. -/
theorem run_command (hline : ShellLine line) (argv0buf : Nat) (buf : Mem) {fuel : Nat} (h : Ready line s words tokens)
    (hfuel : tokens.length < fuel) {ws : List (List (BitVec 8))} (hws : ws ∈ commands words tokens) :
    ∃ answers ran, s.run argv0buf buf fuel answers = some ran ∧ (ran.InBounds ↔ CommandFits ws) := by
  induction fuel generalizing s words tokens with
  | zero => exact absurd hfuel (Nat.not_lt_zero _)
  | succ fuel ih =>
      -- The first answer, and the others.
      have hnext : ∀ (a : Answer) (s' : Shell), s.step a = some (.next s') →
          (∃ answers ran, s'.run argv0buf buf fuel answers = some ran ∧ (ran.InBounds ↔ CommandFits ws)) →
          ∃ answers ran, s.run argv0buf buf (fuel + 1) answers = some ran ∧ (ran.InBounds ↔ CommandFits ws) := by
        rintro a s' hstep ⟨answers, ran, hran, hiff⟩
        refine ⟨fun k => if k = 0 then a else answers (k - 1), ran, ?_, hiff⟩
        unfold Shell.run
        dsimp only
        rw [if_pos rfl, hstep]
        exact hran
      have hrunit : ∀ (a : Answer) (s' : Shell), s.step a = some (.runit s') →
          (∃ ran, s'.runit argv0buf buf = some ran ∧ (ran.InBounds ↔ CommandFits ws)) →
          ∃ answers ran, s.run argv0buf buf (fuel + 1) answers = some ran ∧ (ran.InBounds ↔ CommandFits ws) := by
        rintro a s' hstep ⟨ran, hran, hiff⟩
        refine ⟨fun _ => a, ran, ?_, hiff⟩
        unfold Shell.run
        rw [hstep]
        exact hran
      -- The calls succeed, and `fork` returns in the parent when the command is to be run there.
      obtain ⟨st, hstep, hst⟩ := step_ok h ⟨0, 0, 0, 0, 1⟩
      obtain ⟨st', hstep', hst'⟩ := step_ok h ⟨0, 0, 0, 0, 0⟩
      cases hst with
      | done h1 =>
          rw [List.mem_singleton.mp hws]
          rw [List.mem_singleton.mp hws] at hrunit
          exact hrunit _ _ hstep (runit_ok hline h1 argv0buf buf)
      | word hroom h1 =>
          rw [commands_word hroom] at hws
          exact hnext _ _ hstep (ih h1 (Nat.lt_of_succ_lt_succ hfuel) hws)
      | tooMany hroom _ =>
          rw [commands_full hroom] at hws
          cases hws
      | redirect hc _ h1 =>
          rw [commands_redirect hc] at hws
          rw [List.length_cons, List.length_cons] at hfuel
          exact hnext _ _ hstep (ih h1 (by omega) hws)
      | notOpened _ hfd _ => exact absurd hfd (by decide)
      | syntaxError hc htokens _ =>
          rw [commands_error (redirect_ne_pipe hc) fun _ => htokens] at hws
          cases hws
      | noPipe hfail _ => exact absurd hfail (by decide)
      | badToken hc _ =>
          rw [commands_error hc.1 fun h => absurd h (not_or.mpr hc.2)] at hws
          cases hws
      | child _ hfork _ => exact absurd hfork (by decide)
      | parent _ _ h1 =>
          rw [commands_pipe] at hws
          rcases List.mem_cons.mp hws with rfl | hws
          · exact hrunit _ _ hstep (runit_ok hline h1 argv0buf buf)
          · cases hst' with
            | child _ _ h1 => exact hnext _ _ hstep' (ih h1 (Nat.lt_of_succ_lt_succ hfuel) hws)
            | parent _ hfork _ => exact absurd hfork (by decide)
            | noPipe hfail _ => exact absurd hfail (by decide)
            | notOpened _ hfd _ => exact absurd hfd (by decide)
            | syntaxError hc _ _ => exact absurd hc (by decide)
            | redirect hc _ _ => exact absurd hc (by decide)
            | badToken hc _ => exact absurd rfl hc.1

end

section

variable {g : Gettoken} {p : Nat} {line : List (BitVec 8)}

/-- `runcmd` collects the tokens of the line. -/
theorem runcmd_eq (argv : Nat → Nat) (t argv0buf : Nat) (buf : Mem) (h : Line g.mem p line) :
    ShellLine line ∧ (lex line).length < 2 ^ 32 ∧ ∃ s : Shell, Ready line s [] (lex line) ∧
      ∀ answers, runcmd g argv t argv0buf buf p answers = s.run argv0buf buf (2 ^ 32) answers := by
  obtain ⟨g0, hscan, hs⟩ := scan_ok h
  have hbound : line.length < 2 ^ 32 := by
    have := h.bound
    omega
  refine ⟨⟨h.nonzero, hbound⟩, Nat.lt_of_le_of_lt (lex_length line) hbound, ⟨g0, t, 0, argv, [], 0, []⟩, ?_,
    fun answers => ?_⟩
  · refine ⟨hs.pending, lex_within line, rfl, Nat.zero_le _, fun k hk => ?_, fun w hw => ?_⟩
    · cases hk
    · cases hw
  · unfold runcmd gettoken
    rw [if_pos h.pos, hscan]
    rfl

/-- A command that does not fit can be run. -/
theorem runcmd_overruns (argv : Nat → Nat) (t argv0buf : Nat) (buf : Mem) (h : Line g.mem p line)
    (words : List (List (BitVec 8))) (hwords : words ∈ commands [] (lex line)) (hfit : ¬ CommandFits words) :
    ∃ answers ran, runcmd g argv t argv0buf buf p answers = some ran ∧ ¬ ran.InBounds := by
  obtain ⟨hline, hfuel, s, hready, hrun⟩ := runcmd_eq argv t argv0buf buf h
  obtain ⟨answers, ran, hran, hiff⟩ := run_command hline argv0buf buf hready hfuel hwords
  exact ⟨answers, ran, (hrun answers).trans hran, fun hb => hfit (hiff.mp hb)⟩

end

/-- `runcmd` comes to its end with every line and all that its calls return, and it stays in its buffers
if and only if every command of the line fits. -/
theorem runcmd_in_bounds_iff (g : Gettoken) (argv : Nat → Nat) (t argv0buf : Nat) (buf : Mem) {p : Nat}
    {line : List (BitVec 8)} (h : Line g.mem p line) :
    (∀ answers, ∃ ran, runcmd g argv t argv0buf buf p answers = some ran) ∧
    ((∀ answers ran, runcmd g argv t argv0buf buf p answers = some ran → ran.InBounds) ↔
      ∀ words ∈ commands [] (lex line), CommandFits words) := by
  obtain ⟨hline, hfuel, s, hready, hrun⟩ := runcmd_eq argv t argv0buf buf h
  refine ⟨fun answers => ?_, fun hall words hwords => ?_, fun hfits answers ran hran => ?_⟩
  · obtain ⟨ran, hran, -⟩ := run_fits hline argv0buf buf hready hfuel answers
    exact ⟨ran, (hrun answers).trans hran⟩
  · by_contra hfit
    obtain ⟨answers, ran, hran, hout⟩ := runcmd_overruns argv t argv0buf buf h words hwords hfit
    exact hout (hall answers ran hran)
  · obtain ⟨ran', hran', hbounds⟩ := run_fits hline argv0buf buf hready hfuel answers
    rw [hrun, hran'] at hran
    cases hran
    exact hbounds hfits

/-- `cat<f |x` -/
theorem runcmd_in_bounds_iff_cat :
    let line := [0x63#8, 0x61#8, 0x74#8, 0x3c#8, 0x66#8, 0x20#8, 0x7c#8, 0x78#8]
    let run := runcmd ⟨textAt line, 0, 0, 0⟩ (fun _ => 0) 0 0x1000 (fun _ => 0#8) 1
    (∀ answers, ∃ ran, run answers = some ran) ∧
    ((∀ answers ran, run answers = some ran → ran.InBounds) ↔ ∀ words ∈ commands [] (lex line), CommandFits words) :=
  runcmd_in_bounds_iff ⟨textAt _, 0, 0, 0⟩ _ _ _ _ (line_textAt (by decide) (by decide))

/-- `n` words, each of them an `a`, with a space behind each. -/
def manyWords : Nat → List (BitVec 8)
  | 0 => []
  | n + 1 => 0x61#8 :: 0x20#8 :: manyWords n

theorem manyWords_spec (n : Nat) : lex (manyWords n) = List.replicate n (.word [0x61#8]) ∧
    0#8 ∉ manyWords n ∧ (manyWords n).length = 2 * n := by
  induction n with
  | zero => exact ⟨lex_nil, List.not_mem_nil, rfl⟩
  | succ n ih =>
      obtain ⟨hlex, hnz, hlen⟩ := ih
      refine ⟨?_, fun h => ?_, ?_⟩
      · unfold manyWords
        rw [lex_word (by decide)]
        change Token.word [0x61#8] :: lex (0x20#8 :: manyWords n) = _
        rw [lex_space (by decide), hlex]
        rfl
      · rcases List.mem_cons.mp h with h | h
        · exact absurd h (by decide)
        · rcases List.mem_cons.mp h with h | h
          · exact absurd h (by decide)
          · exact hnz h
      · unfold manyWords
        rw [List.length_cons, List.length_cons, hlen]
        omega

theorem lex_replicate (n : Nat) :
    lex (List.replicate (n + 1) 0x61#8) = [.word (List.replicate (n + 1) 0x61#8)] := by
  have hall : ∀ c ∈ List.replicate (n + 1) 0x61#8, wordChar c = true := by
    intro c hc
    rw [List.eq_of_mem_replicate hc]
    decide
  have htake := List.takeWhile_eq_self_iff.mpr hall
  have hdrop := List.dropWhile_eq_nil_iff.mpr hall
  rw [List.replicate_succ] at htake hdrop ⊢
  rw [lex_word (by decide), htake, hdrop, lex_nil]

/-- Sixteen words, and one word that is as long as a line can be. -/
theorem runcmd_out_of_bounds :
    (∃ answers ran, runcmd ⟨textAt (manyWords 16), 0, 0, 0⟩ (fun _ => 0) 0 0x1000 (fun _ => 0#8) 1 answers =
      some ran ∧ ¬ ran.InBounds) ∧
    ∃ answers ran, runcmd ⟨textAt (List.replicate 1023 0x61#8), 0, 0, 0⟩ (fun _ => 0) 0 0x1000 (fun _ => 0#8) 1
      answers = some ran ∧ ¬ ran.InBounds := by
  constructor
  · obtain ⟨hlex, hnz, hlen⟩ := manyWords_spec 16
    have hline := line_textAt hnz (by rw [hlen]; decide)
    refine runcmd_overruns _ _ _ _ hline (List.replicate 16 [0x61#8]) ?_ (fun hfit => hfit.argv rfl)
    rw [hlex]
    decide
  · have hnz : 0#8 ∉ List.replicate 1023 0x61#8 := fun h => absurd (List.eq_of_mem_replicate h) (by decide)
    have hline := line_textAt hnz (by rw [List.length_replicate]; decide)
    refine runcmd_overruns _ _ _ _ hline [List.replicate 1023 0x61#8] ?_ (fun hfit => ?_)
    · rw [lex_replicate 1022]
      exact List.mem_cons_self
    · rcases hfit.name _ rfl with hslash | hlen
      · rw [List.replicate_succ] at hslash
        exact absurd hslash (by decide)
      · rw [List.length_replicate] at hlen
        exact absurd hlen (by decide)

end Jos.User
