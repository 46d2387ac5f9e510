import Jos.Fs.Path
import Jos.Fs.Serv

/-!
# The requests of the file server

The table of open files and the other handlers of `fs/serv.c`: `openfile_alloc`, `serve_open`,
`serve_set_size`, `serve_stat`, `serve_flush`, `serve_sync`, and the dispatch of `serve`. Between
two requests the clients can do what they like with the pages they share with the server: the
page at `fsreq` and the `Fd` pages of the files that were opened.
-/

namespace Jos.Fs

open Jos.Lib

def eNoMem : Int := 4
def eMaxOpen : Int := 10

def oAccmode : BitVec 32 := 0x3#32
def oCreat : BitVec 32 := 0x100#32
def oTrunc : BitVec 32 := 0x200#32
def oExcl : BitVec 32 := 0x400#32

/-- `devfile.dev_id`, the character `f`. -/
def devfileId : BitVec 32 := 0x66#32

/-! ## Open files -/

/-- The slot `i` with another file id and file; its `Fd` page stays. -/
def Server.put (s : Server) (i : Nat) (fileid : BitVec 32) (file : Nat) : Server where
  opentab j := if j = i then ⟨fileid, file, (s.opentab i).fd⟩ else s.opentab j
  pageref := s.pageref
  fd_eq j hj := by
    split
    · rename_i heq
      rw [heq] at hj ⊢
      exact s.fd_eq i hj
    · exact s.fd_eq j hj

/-- The server maps the page at `a`, and nobody else. -/
def Server.mapped (s : Server) (a : Nat) : Server :=
  { s with pageref := fun x => if x = a then 1 else s.pageref x }

/-- The loop of `openfile_alloc`: the first slot whose page nobody else has. -/
def freeSlot (s : Server) : Option Nat :=
  (List.range maxopen).find? fun i => s.pageref (s.opentab i).fd ≤ 1

/-- `openfile_alloc`; `page` says whether `sys_page_alloc` finds a page. The result is the slot. -/
def openfileAlloc (page : Bool) (s : Server) (m : Mem) : Server × Mem × Except Int Nat :=
  match freeSlot s with
  | none => (s, m, .error (-eMaxOpen))
  | some i =>
      let o := s.opentab i
      if s.pageref o.fd = 0 ∧ page = false then (s, m, .error (-eNoMem))
      else ((s.put i (o.fileid + BitVec.ofNat 32 maxopen) o.file).mapped o.fd,
        m.fill o.fd 0 4096, .ok i)

/-! ## The handlers -/

/-- What a handler leaves: the table, the memory, the value for the client and the page to send
along. -/
structure Reply where
  srv : Server
  mem : Mem
  value : Int
  page : Option Nat

/-- `req->req_path`, cut off at `MAXPATHLEN - 1`, and `req->req_omode`. -/
def reqPath (m : Mem) (ipc : Nat) : List (BitVec 8) := strAt m ipc (maxpathlen - 1)
def reqOmode (m : Mem) (ipc : Nat) : BitVec 32 := m.read32 (ipc + maxpathlen)

/-- The part of `serve_open` that creates or opens the file. -/
def openOrCreate (m : Mem) (path : List (BitVec 8)) (omode : BitVec 32) :
    Option (Mem × Except Int Nat) :=
  if omode &&& oCreat = 0#32 then fileOpen m path
  else do
    match ← fileCreate m path with
    | (m, .ok f) => some (m, .ok f)
    | (m, .error r) =>
        if omode &&& oExcl = 0#32 ∧ r = -eFileExists then fileOpen m path
        else some (m, .error r)

/-- The part of `serve_open` that truncates the file. -/
def truncateOpened (m : Mem) (f : Nat) (omode : BitVec 32) : Option Mem :=
  if omode &&& oTrunc = 0#32 then some m else fileSetSize m f 0#32

/-- `fd_file.id`, `fd_omode` and `fd_dev_id` of the `Fd` page. -/
def fillFd (m : Mem) (fd : Nat) (fileid omode : BitVec 32) : Mem :=
  ((m.write32 (fd + 12) fileid).write32 (fd + 8) (omode &&& oAccmode)).write32 fd devfileId

/-- `serve_open` -/
def serveOpen (page : Bool) (s : Server) (m : Mem) (ipc : Nat) : Option Reply :=
  let path := reqPath m ipc
  let omode := reqOmode m ipc
  match openfileAlloc page s m with
  | (s, m, .error r) => some ⟨s, m, r, none⟩
  | (s, m, .ok i) =>
      let o := s.opentab i
      if o.fileid.toInt < 0 then some ⟨s, m, o.fileid.toInt, none⟩
      else do
        match ← openOrCreate m path omode with
        | (m, .error r) => some ⟨s, m, r, none⟩
        | (m, .ok f) =>
            let m ← truncateOpened m f omode
            match ← fileOpen m path with
            | (m, .error r) => some ⟨s, m, r, none⟩
            | (m, .ok f) => some ⟨s.put i o.fileid f, fillFd m o.fd o.fileid omode, 0, some o.fd⟩

/-- `serve_set_size` -/
def serveSetSize (s : Server) (m : Mem) (ipc : Nat) : Option (Mem × Int) :=
  match openfileLookup s (reqFileid m ipc) with
  | .error r => some (m, r)
  | .ok o => (fileSetSize m o.file (m.read32 (ipc + 4))).map fun m => (m, 0)

/-- The string at `a`; no string is longer than the memory. -/
def cString (m : Mem) (a : Nat) : List (BitVec 8) := strAt m a 4294967296

/-- `serve_stat`; the reply overlays the request. -/
def serveStat (s : Server) (m : Mem) (ipc : Nat) : Mem × Int :=
  match openfileLookup s (reqFileid m ipc) with
  | .error r => (m, r)
  | .ok o =>
      let m := strcpy m ipc (cString m o.file)
      let m := m.write32 (ipc + 128) (fSize m o.file)
      (m.write32 (ipc + 132) (if fType m o.file = ftypeDir then 1#32 else 0#32), 0)

/-- `serve_flush` -/
def serveFlush (s : Server) (m : Mem) (ipc : Nat) : Option Int :=
  match openfileLookup s (reqFileid m ipc) with
  | .error r => some r
  | .ok o => (fileFlush m o.file).map fun _ => 0

/-- `fs_sync` -/
def fsSync (m : Mem) : Option Unit :=
  (List.range' 1 ((sNblocks m).toNat - 1)).forM fun i => do
    let a ← diskaddr m (BitVec.ofNat 32 i)
    flushBlock a

/-- `serve_sync` -/
def serveSync (m : Mem) : Option Int := (fsSync m).map fun _ => 0

/-- The numbers of the requests. -/
def fsreqOpen : BitVec 32 := 1#32
def fsreqSetSize : BitVec 32 := 2#32
def fsreqRead : BitVec 32 := 3#32
def fsreqWrite : BitVec 32 := 4#32
def fsreqStat : BitVec 32 := 5#32
def fsreqFlush : BitVec 32 := 6#32
def fsreqSync : BitVec 32 := 8#32

/-- The dispatch of `serve` on the received value, for a request with an argument page. -/
def serve (page : Bool) (s : Server) (m : Mem) (req : BitVec 32) : Option Reply :=
  if req = fsreqOpen then serveOpen page s m fsreq
  else if req = fsreqSetSize then
    (serveSetSize s m fsreq).map fun (m, r) => ⟨s, m, r, none⟩
  else if req = fsreqRead then
    (serveRead s m fsreq).map fun (m, _, r) => ⟨s, m, r, none⟩
  else if req = fsreqWrite then
    (serveWrite s m fsreq).map fun (m, _, r) => ⟨s, m, r, none⟩
  else if req = fsreqStat then
    some ⟨s, (serveStat s m fsreq).1, (serveStat s m fsreq).2, none⟩
  else if req = fsreqFlush then (serveFlush s m fsreq).map fun r => ⟨s, m, r, none⟩
  else if req = fsreqSync then (serveSync m).map fun r => ⟨s, m, r, none⟩
  else some ⟨s, m, -eInval, none⟩

/-! ## Runs -/

/-- The clients between two requests: they change memory they share with the server, which the
disk is not, and they map and unmap the `Fd` pages that were sent to them. A slot has a file
after the first time its page was sent. -/
structure Clients (s : Server) (m : Mem) (s' : Server) (m' : Mem) : Prop where
  opentab : s'.opentab = s.opentab
  pageref : ∀ i < maxopen, (s.opentab i).file = 0 →
    s'.pageref (s.opentab i).fd = s.pageref (s.opentab i).fd
  disk : SameDisk m m'

/-- Runs of the server in which every request is as `ok` says: the clients prepare a request, and
the server handles it. -/
inductive Serves (ok : Bool → Server → Mem → BitVec 32 → Prop) (s0 : Server) (m0 : Mem) :
    Server → Mem → Prop
  | start : Serves ok s0 m0 s0 m0
  | clients {s m s' m'} : Serves ok s0 m0 s m → Clients s m s' m' → Serves ok s0 m0 s' m'
  | request {s m page req reply} : Serves ok s0 m0 s m → ok page s m req →
      serve page s m req = some reply → Serves ok s0 m0 reply.srv reply.mem

end Jos.Fs
