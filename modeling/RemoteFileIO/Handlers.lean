import RemoteFileIO.SerializeTree

/-! The nine handlers of server.c. Each decodes its arguments from the payload buffer, makes one
file-system call, builds its reply in a block and passes it to `send`. The file system's answers
are the environment's; next to the handlers stand the requests and replies of §4.2. -/

namespace RemoteFileIO

open DirTreeNode

/-- A file-system call, with the arguments a handler passes. -/
inductive Call
  | open (path : CString) (flags : Int) (mode : Nat)
  | close (fd : Int)
  | write (fd : Int) (data : Bytes)
  | read (fd : Int) (nbyte : Nat)
  | lseek (fd : Int) (offset : Int) (whence : Int)
  | stat (path : CString)
  | unlink (path : CString)
  | getdirentries (fd : Int) (nbyte : Nat) (basep : Int)
  | getdirtree (path : CString)
  deriving DecidableEq

/-- What a call returns: result, `errno`, bytes stored, and `getdirtree`'s tree (`none`: NULL). -/
structure Outcome where
  res : Int
  errno : Int
  data : Bytes
  tree : Option DirTreeNode

/-- What a handler did: the call it made and the bytes it passed to `send`. -/
structure Served where
  call : Call
  reply : Bytes

/-- `sizeof(struct stat)` on x86-64 Linux. -/
def statSize : Nat := 144

def Block.peekInt (b : Block) (off : Nat) : Except Stop Int := do pure (toInt32 (← b.peek off 4))

def Block.peekOff (b : Block) (off : Nat) : Except Stop Int := do pure (toInt64 (← b.peek off 8))

def memcpyTo (dst : Option Block) (off : Nat) (src : Bytes) : Except Stop Block :=
  match dst with
  | some b => b.write off src
  | none => .error (.fault 0 off src.length)

/-- `memcpy(path, buf + sizeof(int), pathLen); path[pathLen] = '\0';`, and the C string it holds. -/
def copyPath (buf path : Block) (pathLen : Int) : Except Stop CString := do
  let path ← path.write 0 (← buf.read 4 (toSizeT pathLen))
  let path ← path.write (toSizeT pathLen) [0]
  pure (CString.ofBuffer path.data)

/-- A status-only reply: `len = w + sizeof(int)`, the result in `w` bytes, `errno`; `w + 8` sent. -/
def statusReply (retval : Block) (w : Nat) (res errno : Int) : Except Stop Bytes := do
  let retval ← retval.write 0 (int32Bytes (w + 4))
  let retval ← retval.write 4 (leBytes w (toSizeT res))
  let retval ← retval.write (4 + w) (int32Bytes errno)
  retval.read 0 (w + 8)

/-- The data reply of `read` and `getdirentries`: every size comes from `res`, whatever its sign. -/
def dataReply (buff : Block) (res errno : Int) : Except Stop Bytes := do
  let retval ← mallocOrExit (toSizeT (res + 16))
  let retval ← retval.write 0 (int32Bytes (res + 12))
  let retval ← retval.write 4 (int64Bytes res)
  let retval ← retval.write 12 (int32Bytes errno)
  let retval ← retval.write 16 (← buff.read 0 (toSizeT res))
  retval.read 0 (toSizeT (16 + res))

/-- The reply of `stat`: `len`, the result, `errno` and the raw `struct stat` record. -/
def statReply (s : Block) (res errno : Int) : Except Stop Bytes := do
  let retval ← mallocOrExit (12 + statSize)
  let retval ← retval.write 0 (int32Bytes (8 + statSize))
  let retval ← retval.write 4 (int32Bytes res)
  let retval ← retval.write 8 (int32Bytes errno)
  let retval ← retval.write 12 (← s.read 0 statSize)
  retval.read 0 (12 + statSize)

/-- The reply of `getdirtree`, a stack array: `bufLen`, 0, `len`, `errno`, the tree and a NUL. -/
def treeReply (s : Ret) (errno : Int) : Except Stop Bytes := do
  let len := toInt64 s.len
  let retval : Block := ⟨toSizeT (12 + 8 + len + 1), []⟩
  let retval ← retval.write 0 (int32Bytes (8 + 8 + len + 1))
  let retval ← retval.write 4 (int32Bytes 0)
  let retval ← retval.write 8 (int64Bytes len)
  let retval ← retval.write 16 (int32Bytes errno)
  let retval ← retval.write 20 (← s.tmp.read 0 (toSizeT len))
  let retval ← retval.write (toSizeT (20 + len)) [0]
  retval.read 0 (toSizeT (s.len + 20 + 1))

/-- The first access of the encoder's log that lies outside its block, as the fault it is. -/
def checkLog (log : List Access) : Except Stop Unit :=
  match log.find? (fun a => !decide a.Fits) with
  | some a => .error (.fault a.size a.off a.count)
  | none => .ok ()

def serveOpen (buf : Block) (run : Call → Outcome) : Except Stop Served := do
  let flag ← buf.peekInt 0
  let m ← buf.peek 4 4
  let pathLen ← buf.peek 8 8
  let path ← mallocOrExit ((pathLen + 1) % 2^64)
  let path ← path.write 0 (← buf.read 16 pathLen)
  let path ← path.write pathLen [0]
  let call := Call.open (CString.ofBuffer path.data) flag m
  let o := run call
  let reply ← statusReply (← mallocOrExit 12) 4 o.res o.errno
  pure ⟨call, reply⟩

def serveClose (buf : Block) (run : Call → Outcome) : Except Stop Served := do
  let fd ← buf.peekInt 0
  let o := run (.close fd)
  let reply ← statusReply (← mallocOrExit 12) 4 o.res o.errno
  pure ⟨.close fd, reply⟩

/-- `serveWrite`; its `malloc(nbyte)` is not checked. -/
def serveWrite (buf : Block) (run : Call → Outcome) : Except Stop Served := do
  let fildes ← buf.peekInt 0
  let nbyte ← buf.peek 4 8
  let buff ← memcpyTo (malloc nbyte) 0 (← buf.read 12 nbyte)
  let call := Call.write fildes buff.data
  let o := run call
  let reply ← statusReply (← mallocOrExit 16) 8 o.res o.errno
  pure ⟨call, reply⟩

def serveRead (buf : Block) (run : Call → Outcome) : Except Stop Served := do
  let fildes ← buf.peekInt 0
  let nbyte ← buf.peek 4 8
  let buff ← mallocOrExit nbyte
  let call := Call.read fildes nbyte
  let o := run call
  let buff ← buff.write 0 o.data
  let reply ← if o.res ≠ -1 then dataReply buff o.res o.errno
    else statusReply (← mallocOrExit 16) 8 o.res o.errno
  pure ⟨call, reply⟩

def serveLseek (buf : Block) (run : Call → Outcome) : Except Stop Served := do
  let fildes ← buf.peekInt 0
  let offset ← buf.peekOff 4
  let pos ← buf.peekInt 12
  let call := Call.lseek fildes offset pos
  let o := run call
  let reply ← statusReply (← mallocOrExit 16) 8 o.res o.errno
  pure ⟨call, reply⟩

def serveStat (buf : Block) (run : Call → Outcome) : Except Stop Served := do
  let pathLen ← buf.peekInt 0
  let path ← copyPath buf (← mallocOrExit (toSizeT (toInt32 (pathLen + 1)))) pathLen
  let call := Call.stat path
  let o := run call
  let reply ← statReply ⟨statSize, o.data⟩ o.res o.errno
  pure ⟨call, reply⟩

def serveUnlink (buf : Block) (run : Call → Outcome) : Except Stop Served := do
  let pathLen ← buf.peekInt 0
  let path ← copyPath buf (← mallocOrExit (toSizeT (toInt32 (pathLen + 1)))) pathLen
  let call := Call.unlink path
  let o := run call
  let reply ← statusReply (← mallocOrExit 12) 4 o.res o.errno
  pure ⟨call, reply⟩

/-- `serveGetdirentries`: unlike `serveRead`, it builds a data reply for every result, -1 too. -/
def serveGetdirentries (buf : Block) (run : Call → Outcome) : Except Stop Served := do
  let fd ← buf.peekInt 0
  let nbyte ← buf.peek 4 8
  let basep := toInt64 (leValue (← buf.read 12 8))
  let call := Call.getdirentries fd nbyte basep
  let o := run call
  let buff ← Block.write ⟨nbyte, []⟩ 0 o.data
  let reply ← dataReply buff o.res o.errno
  pure ⟨call, reply⟩

/-- `serveGetdirtree`: an access of the encoder outside its blocks is a fault. -/
def serveGetdirtree (buf : Block) (run : Call → Outcome) : Except Stop Served := do
  let n ← buf.peekInt 0
  let path ← copyPath buf ⟨toSizeT (toInt32 (n + 1)), []⟩ n
  let call := Call.getdirtree path
  let o := run call
  match o.tree with
  | none =>
    let reply ← statusReply ⟨12, []⟩ 4 1 o.errno
    pure ⟨call, reply⟩
  | some t =>
    let (s, log) ← serializeTree t
    checkLog log
    let reply ← treeReply s o.errno
    pure ⟨call, reply⟩

/-- `serve`'s dispatch on `*fID`: the handler of an op id, `none` for an unknown one. -/
def handler (fID : Int) : Option (Block → (Call → Outcome) → Except Stop Served) :=
  if fID = 0 then some serveOpen
  else if fID = 1 then some serveClose
  else if fID = 2 then some serveWrite
  else if fID = 3 then some serveRead
  else if fID = 4 then some serveLseek
  else if fID = 5 then some serveStat
  else if fID = 6 then some serveUnlink
  else if fID = 7 then some serveGetdirentries
  else if fID = 8 then some serveGetdirtree
  else none

theorem handler_eq_some {fID : Int} {h : Block → (Call → Outcome) → Except Stop Served}
    (hh : handler fID = some h) :
    fID = 0 ∧ h = serveOpen ∨ fID = 1 ∧ h = serveClose ∨ fID = 2 ∧ h = serveWrite ∨
    fID = 3 ∧ h = serveRead ∨ fID = 4 ∧ h = serveLseek ∨ fID = 5 ∧ h = serveStat ∨
    fID = 6 ∧ h = serveUnlink ∨ fID = 7 ∧ h = serveGetdirentries ∨ fID = 8 ∧ h = serveGetdirtree := by
  unfold handler at hh
  iterate 8
    refine (ite_eq_iff.mp hh).imp (fun ⟨hp, he⟩ => ⟨hp, (Option.some.inj he).symm⟩) fun ⟨_, hh⟩ => ?_
  obtain ⟨hp, he⟩ := (ite_eq_iff.mp hh).resolve_right fun ⟨_, h⟩ => nomatch h
  exact ⟨hp, (Option.some.inj he).symm⟩

theorem handler_eq_none {fID : Int} (h : fID < 0 ∨ 8 < fID) : handler fID = none := by
  cases hh : handler fID with
  | none => rfl
  | some serve =>
    obtain ⟨hf, -⟩ | ⟨hf, -⟩ | ⟨hf, -⟩ | ⟨hf, -⟩ | ⟨hf, -⟩ | ⟨hf, -⟩ | ⟨hf, -⟩ | ⟨hf, -⟩ | ⟨hf, -⟩ :=
      handler_eq_some hh <;> omega

theorem handler_of_le {fID : Int} (h₀ : 0 ≤ fID) (h₈ : fID ≤ 8) : ∃ serve, handler fID = some serve := by
  interval_cases fID <;> exact ⟨_, rfl⟩

def Call.opId : Call → Nat
  | .open .. => 0
  | .close _ => 1
  | .write .. => 2
  | .read .. => 3
  | .lseek .. => 4
  | .stat _ => 5
  | .unlink _ => 6
  | .getdirentries .. => 7
  | .getdirtree _ => 8

/-- The request payload of a call, as §4.2 lays it out. -/
def Call.payload : Call → Bytes
  | .open path flags mode =>
    int32Bytes flags ++ (leBytes 4 mode ++ (leBytes 8 path.bytes.length ++ path.bytes))
  | .close fd => int32Bytes fd
  | .write fd data => int32Bytes fd ++ (leBytes 8 data.length ++ data)
  | .read fd nbyte => int32Bytes fd ++ leBytes 8 nbyte
  | .lseek fd offset whence => int32Bytes fd ++ (int64Bytes offset ++ int32Bytes whence)
  | .stat path => int32Bytes path.bytes.length ++ path.bytes
  | .unlink path => int32Bytes path.bytes.length ++ path.bytes
  | .getdirentries fd nbyte basep => int32Bytes fd ++ (leBytes 8 nbyte ++ int64Bytes basep)
  | .getdirtree path => int32Bytes path.bytes.length ++ path.bytes

/-- The reply §4.2 prescribes: `reply_len`, the result, `err_code` and the op's extra bytes. -/
def specReply : Call → Outcome → Bytes
  | .open .., o | .close _, o | .unlink _, o =>
    int32Bytes 8 ++ int32Bytes o.res ++ int32Bytes o.errno
  | .stat _, o => int32Bytes (8 + statSize) ++ int32Bytes o.res ++ int32Bytes o.errno ++ o.data
  | .write .., o | .lseek .., o => int32Bytes 12 ++ int64Bytes o.res ++ int32Bytes o.errno
  | .read .., o | .getdirentries .., o =>
    int32Bytes (12 + max o.res 0) ++ int64Bytes o.res ++ int32Bytes o.errno ++
      o.data.take (max o.res 0).toNat
  | .getdirtree _, o =>
    match o.tree with
    | none => int32Bytes 8 ++ int32Bytes 1 ++ int32Bytes o.errno
    | some t => int32Bytes (16 + t.enc.length + 1) ++ int32Bytes 0 ++ int64Bytes t.enc.length ++
        int32Bytes o.errno ++ t.enc ++ [0]

/-- The arguments a client can send: each field within its C type, the payload's length an `int`. -/
def Call.WF : Call → Prop
  | .open path flags mode => -2^31 ≤ flags ∧ flags < 2^31 ∧ mode < 2^32 ∧ 16 + path.bytes.length < 2^31
  | .close fd => -2^31 ≤ fd ∧ fd < 2^31
  | .write fd data => -2^31 ≤ fd ∧ fd < 2^31 ∧ 12 + data.length < 2^31
  | .read fd nbyte => -2^31 ≤ fd ∧ fd < 2^31 ∧ nbyte < 2^63
  | .lseek fd offset whence =>
    -2^31 ≤ fd ∧ fd < 2^31 ∧ -2^63 ≤ offset ∧ offset < 2^63 ∧ -2^31 ≤ whence ∧ whence < 2^31
  | .stat path => 4 + path.bytes.length < 2^31
  | .unlink path => 4 + path.bytes.length < 2^31
  | .getdirentries fd nbyte basep =>
    -2^31 ≤ fd ∧ fd < 2^31 ∧ nbyte < 2^64 ∧ -2^63 ≤ basep ∧ basep < 2^63
  | .getdirtree path => 4 + path.bytes.length < 2^31

theorem Call.WF.payload_length_lt {c : Call} (hc : c.WF) : c.payload.length < 2^31 := by
  cases c <;> simp only [Call.WF, Call.payload, List.length_append, int32Bytes_length,
    leBytes_length, int64Bytes_length] at hc ⊢ <;> omega

theorem Call.opId_le (c : Call) : c.opId ≤ 8 := by cases c <;> simp [Call.opId]

/-- The outcomes for which the handlers send §4.2's reply: no failed `getdirentries`, data within
`nbyte`, a full `struct stat`, a tree the encoder keeps inside its blocks, `int` lengths. -/
def Outcome.Servable : Call → Outcome → Prop
  | .read _ nbyte, o => o.res = -1 ∧ o.data = [] ∨
    0 ≤ o.res ∧ o.res ≤ nbyte ∧ o.data.length = o.res.toNat ∧ o.res + 16 < 2^31
  | .getdirentries _ nbyte _, o =>
    0 ≤ o.res ∧ o.res ≤ nbyte ∧ o.data.length = o.res.toNat ∧ o.res + 16 < 2^31
  | .stat _, o => o.data.length = statSize
  | .getdirtree _, o => ∀ t, o.tree = some t → t.enc.length + 200 < 2^31 ∧ t.RootsFit
  | _, _ => True

theorem statusReply_fresh {size w : Nat} (res errno : Int) (hs : size = w + 8) :
    statusReply ⟨size, []⟩ w res errno =
      .ok (int32Bytes (w + 4) ++ leBytes w (toSizeT res) ++ int32Bytes errno) := by
  subst hs
  rw [statusReply, Block.write_fresh (by simp), except_ok_bind, Block.write_append (by simp)
    (by simp; omega), except_ok_bind, Block.write_append (by simp) (by simp; omega),
    except_ok_bind, Block.read_all (by simp; omega) le_rfl]

theorem dataReply_of_nonneg {nbyte : Nat} {data : Bytes} {res : Int} (errno : Int) (h0 : 0 ≤ res)
    (hlen : data.length = res.toNat) (hn : res.toNat ≤ nbyte) (hr : res + 16 < 2^31) :
    dataReply ⟨nbyte, data⟩ res errno =
      .ok (int32Bytes (res + 12) ++ int64Bytes res ++ int32Bytes errno ++ data) := by
  have hs : toSizeT (res + 16) = res.toNat + 16 := by unfold toSizeT; omega
  have hd : toSizeT res = res.toNat := by unfold toSizeT; omega
  have hc : toSizeT (16 + res) = res.toNat + 16 := by unfold toSizeT; omega
  rw [dataReply, hs, mallocOrExit_of_lt_two_pow (by omega), except_ok_bind,
    Block.write_fresh (by simp), except_ok_bind, Block.write_append (by simp) (by simp),
    except_ok_bind, Block.write_append (by simp) (by simp), except_ok_bind, hd,
    Block.read_all hlen hn, except_ok_bind, Block.write_append (by simp) (by omega),
    except_ok_bind, hc, Block.read_all (by simp; omega) le_rfl]

/-- A failed call's data reply writes `errno` past the 15 bytes it allocated. -/
theorem dataReply_neg_one (buff : Block) (errno : Int) :
    dataReply buff (-1) errno = .error (.fault 15 12 4) := by
  rw [dataReply, show toSizeT (-1 + 16) = 15 from rfl, mallocOrExit_of_lt_two_pow (by omega),
    except_ok_bind, Block.write_fresh (by simp), except_ok_bind, Block.write_append (by simp)
    (by simp), except_ok_bind, Block.write_of_lt (by simp)]
  rfl

theorem statReply_eq {data : Bytes} (res errno : Int) (hlen : data.length = statSize) :
    statReply ⟨statSize, data⟩ res errno =
      .ok (int32Bytes (8 + statSize) ++ int32Bytes res ++ int32Bytes errno ++ data) := by
  rw [statReply, mallocOrExit_of_lt_two_pow (by decide), except_ok_bind,
    Block.write_fresh (by simp [statSize]), except_ok_bind, Block.write_append (by simp)
    (by simp [statSize]), except_ok_bind, Block.write_append (by simp) (by simp [statSize]),
    except_ok_bind, Block.read_all hlen le_rfl, except_ok_bind, Block.write_append (by simp)
    (by simp [hlen]), except_ok_bind, Block.read_all (by simp [hlen, statSize]) le_rfl]

theorem treeReply_eq {s : Ret} {enc : Bytes} (errno : Int) (hlen : s.len = enc.length)
    (hdata : s.tmp.data = enc) (hsize : enc.length ≤ s.tmp.size) (hbound : enc.length + 21 < 2^31) :
    treeReply s errno = .ok (int32Bytes (16 + enc.length + 1) ++ int32Bytes 0 ++
      int64Bytes enc.length ++ int32Bytes errno ++ enc ++ [0]) := by
  have hl : toInt64 s.len = enc.length := by rw [hlen]; exact toInt64_of_lt (by omega) (by omega)
  have hs : toSizeT (12 + 8 + (enc.length : Int) + 1) = enc.length + 21 := by unfold toSizeT; omega
  have hr : s.tmp.read 0 (toSizeT enc.length) = .ok enc := by
    rw [toSizeT_natCast (by omega), ← hdata]
    exact Block.read_all rfl (hdata ▸ hsize)
  have he : toSizeT (20 + (enc.length : Int)) = 20 + enc.length := by unfold toSizeT; omega
  have hc : toSizeT ((enc.length : Int) + 20 + 1) = enc.length + 21 := by unfold toSizeT; omega
  simp only [treeReply, hl, hs]
  rw [Block.write_fresh (by simp), except_ok_bind, Block.write_append (by simp) (by simp),
    except_ok_bind, Block.write_append (by simp) (by simp), except_ok_bind,
    Block.write_append (by simp) (by simp), except_ok_bind, hr, except_ok_bind,
    Block.write_append (by simp) (by omega), except_ok_bind, he,
    Block.write_nul (by simp; omega) (by omega), except_ok_bind, hlen, hc,
    Block.read_all (by simp; omega) le_rfl]
  rfl

theorem copyPath_payload {path : CString} {size blk : Nat} (hfit : 4 + path.bytes.length ≤ size)
    (hblk : path.bytes.length < blk) (hp : path.bytes.length < 2^31) :
    copyPath ⟨size, int32Bytes path.bytes.length ++ path.bytes⟩ ⟨blk, []⟩ path.bytes.length =
      .ok path := by
  have hL : toSizeT (path.bytes.length : Int) = path.bytes.length := toSizeT_natCast (by omega)
  rw [copyPath, hL, Block.read_int32Bytes_skip (by omega) hfit, Block.read_all rfl (by omega),
    except_ok_bind, Block.write_fresh (by omega), except_ok_bind, Block.write_nul rfl hblk,
    except_ok_bind, CString.ofBuffer_append_zero]
  rfl

theorem serveOpen_payload (path : CString) (flags : Int) (mode : Nat) (h₁ : -2^31 ≤ flags)
    (h₂ : flags < 2^31) (hm : mode < 2^32) (hp : 16 + path.bytes.length < 2^31) (run : Call → Outcome) :
    serveOpen ⟨(Call.open path flags mode).payload.length, (Call.open path flags mode).payload⟩ run =
      .ok ⟨.open path flags mode, specReply (.open path flags mode) (run (.open path flags mode))⟩ := by
  simp (disch := omega) only [serveOpen, Call.payload, Block.peekInt, Block.peek,
    List.length_append, int32Bytes_length, leBytes_length, Block.read_int32Bytes_head,
    Block.read_leBytes_skip, Block.read_leBytes_head, Block.read_int32Bytes_skip, Block.read_all,
    except_pure, except_ok_bind, Nat.reduceSub, Nat.add_sub_cancel_left, leValue_leBytes,
    Nat.mod_eq_of_lt, toInt32_leValue_int32Bytes, toInt32_of_lt, mallocOrExit_of_lt_two_pow,
    Block.write_fresh, Block.write_nul, CString.ofBuffer_append_zero, statusReply_fresh]
  rfl

theorem serveClose_payload (fd : Int) (h₁ : -2^31 ≤ fd) (h₂ : fd < 2^31) (run : Call → Outcome) :
    serveClose ⟨(Call.close fd).payload.length, (Call.close fd).payload⟩ run =
      .ok ⟨.close fd, specReply (.close fd) (run (.close fd))⟩ := by
  simp (disch := omega) only [serveClose, Call.payload, Block.peekInt, Block.peek,
    int32Bytes_length, Block.read_int32Bytes_all, except_pure, except_ok_bind, toInt32_leValue_int32Bytes,
    toInt32_of_lt, mallocOrExit_of_lt_two_pow, statusReply_fresh]
  rfl

theorem serveWrite_payload (fd : Int) (data : Bytes) (h₁ : -2^31 ≤ fd) (h₂ : fd < 2^31)
    (hd : 12 + data.length < 2^31) (run : Call → Outcome) :
    serveWrite ⟨(Call.write fd data).payload.length, (Call.write fd data).payload⟩ run =
      .ok ⟨.write fd data, specReply (.write fd data) (run (.write fd data))⟩ := by
  have hmalloc : malloc data.length = some ⟨data.length, []⟩ := if_pos (by unfold ptrdiffMax; omega)
  simp (disch := omega) only [serveWrite, Call.payload, Block.peekInt, Block.peek,
    List.length_append, int32Bytes_length, leBytes_length, Block.read_int32Bytes_head,
    Block.read_int32Bytes_skip, Block.read_leBytes_head, Block.read_leBytes_skip, Block.read_all,
    except_pure, except_ok_bind, Nat.reduceSub, Nat.add_sub_cancel_left, leValue_leBytes,
    Nat.mod_eq_of_lt, toInt32_leValue_int32Bytes, toInt32_of_lt, hmalloc, memcpyTo,
    Block.write_fresh, mallocOrExit_of_lt_two_pow, statusReply_fresh]
  rfl

theorem serveRead_payload (fd : Int) (nbyte : Nat) (h₁ : -2^31 ≤ fd) (h₂ : fd < 2^31)
    (hn : nbyte < 2^63) (run : Call → Outcome)
    (ho : (run (.read fd nbyte)).res = -1 ∧ (run (.read fd nbyte)).data = [] ∨
      0 ≤ (run (.read fd nbyte)).res ∧ (run (.read fd nbyte)).res ≤ nbyte ∧
      (run (.read fd nbyte)).data.length = (run (.read fd nbyte)).res.toNat ∧
      (run (.read fd nbyte)).res + 16 < 2^31) :
    serveRead ⟨(Call.read fd nbyte).payload.length, (Call.read fd nbyte).payload⟩ run =
      .ok ⟨.read fd nbyte, specReply (.read fd nbyte) (run (.read fd nbyte))⟩ := by
  simp (disch := omega) only [serveRead, Call.payload, Block.peekInt, Block.peek,
    List.length_append, int32Bytes_length, leBytes_length, Block.read_int32Bytes_head,
    Block.read_int32Bytes_skip, Block.read_leBytes_all, except_pure, except_ok_bind,
    Nat.reduceSub, leValue_leBytes, Nat.mod_eq_of_lt, toInt32_leValue_int32Bytes, toInt32_of_lt,
    mallocOrExit_of_lt_two_pow]
  rcases ho with ⟨hres, hdata⟩ | ⟨h0, hle, hlen, hr⟩
  · rw [hdata, Block.write_fresh (by simp), except_ok_bind, if_neg (by simp [hres]),
      statusReply_fresh _ _ rfl]
    simp [specReply, hres]
    rfl
  · rw [Block.write_fresh (by omega), except_ok_bind, if_pos (by omega),
      dataReply_of_nonneg _ h0 hlen (by omega) hr, except_ok_bind]
    simp [specReply, max_eq_left h0, hlen, Int.add_comm]

theorem serveLseek_payload (fd offset whence : Int) (h₁ : -2^31 ≤ fd) (h₂ : fd < 2^31)
    (h₃ : -2^63 ≤ offset) (h₄ : offset < 2^63) (h₅ : -2^31 ≤ whence) (h₆ : whence < 2^31)
    (run : Call → Outcome) :
    serveLseek ⟨(Call.lseek fd offset whence).payload.length, (Call.lseek fd offset whence).payload⟩ run =
      .ok ⟨.lseek fd offset whence, specReply (.lseek fd offset whence) (run (.lseek fd offset whence))⟩ := by
  simp (disch := omega) only [serveLseek, Call.payload, Block.peekInt, Block.peekOff, Block.peek,
    List.length_append, int32Bytes_length, int64Bytes_length, Block.read_int32Bytes_head,
    Block.read_int32Bytes_skip, Block.read_int64Bytes_head, Block.read_int64Bytes_skip,
    Block.read_int32Bytes_all, except_pure, except_ok_bind, Nat.reduceSub,
    toInt32_leValue_int32Bytes, toInt64_leValue_int64Bytes, toInt32_of_lt, toInt64_of_lt,
    mallocOrExit_of_lt_two_pow, statusReply_fresh]
  rfl

theorem serveStat_payload (path : CString) (hp : 4 + path.bytes.length < 2^31) (run : Call → Outcome)
    (hd : (run (.stat path)).data.length = statSize) :
    serveStat ⟨(Call.stat path).payload.length, (Call.stat path).payload⟩ run =
      .ok ⟨.stat path, specReply (.stat path) (run (.stat path))⟩ := by
  have hblk : toSizeT ((path.bytes.length : Int) + 1) = path.bytes.length + 1 := by
    unfold toSizeT; omega
  simp (disch := omega) only [serveStat, Call.payload, Block.peekInt, Block.peek,
    List.length_append, int32Bytes_length, Block.read_int32Bytes_head, except_pure, except_ok_bind,
    toInt32_leValue_int32Bytes, toInt32_of_lt, hblk, mallocOrExit_of_lt_two_pow, copyPath_payload,
    statReply_eq _ _ hd]
  rfl

theorem serveUnlink_payload (path : CString) (hp : 4 + path.bytes.length < 2^31) (run : Call → Outcome) :
    serveUnlink ⟨(Call.unlink path).payload.length, (Call.unlink path).payload⟩ run =
      .ok ⟨.unlink path, specReply (.unlink path) (run (.unlink path))⟩ := by
  have hblk : toSizeT ((path.bytes.length : Int) + 1) = path.bytes.length + 1 := by
    unfold toSizeT; omega
  simp (disch := omega) only [serveUnlink, Call.payload, Block.peekInt, Block.peek,
    List.length_append, int32Bytes_length, Block.read_int32Bytes_head, except_pure, except_ok_bind,
    toInt32_leValue_int32Bytes, toInt32_of_lt, hblk, mallocOrExit_of_lt_two_pow, copyPath_payload,
    statusReply_fresh]
  rfl

theorem serveGetdirentries_payload (fd : Int) (nbyte : Nat) (basep : Int) (h₁ : -2^31 ≤ fd)
    (h₂ : fd < 2^31) (hn : nbyte < 2^64) (h₃ : -2^63 ≤ basep) (h₄ : basep < 2^63)
    (run : Call → Outcome) (h0 : 0 ≤ (run (.getdirentries fd nbyte basep)).res)
    (hle : (run (.getdirentries fd nbyte basep)).res ≤ nbyte)
    (hlen : (run (.getdirentries fd nbyte basep)).data.length =
      (run (.getdirentries fd nbyte basep)).res.toNat)
    (hr : (run (.getdirentries fd nbyte basep)).res + 16 < 2^31) :
    serveGetdirentries ⟨(Call.getdirentries fd nbyte basep).payload.length,
        (Call.getdirentries fd nbyte basep).payload⟩ run =
      .ok ⟨.getdirentries fd nbyte basep,
        specReply (.getdirentries fd nbyte basep) (run (.getdirentries fd nbyte basep))⟩ := by
  simp (disch := omega) only [serveGetdirentries, Call.payload, Block.peekInt, Block.peek,
    List.length_append, int32Bytes_length, int64Bytes_length, leBytes_length,
    Block.read_int32Bytes_head, Block.read_int32Bytes_skip, Block.read_leBytes_head,
    Block.read_leBytes_skip, Block.read_int64Bytes_all, except_pure, except_ok_bind, Nat.reduceSub,
    leValue_leBytes, Nat.mod_eq_of_lt, toInt32_leValue_int32Bytes, toInt64_leValue_int64Bytes,
    toInt32_of_lt, toInt64_of_lt]
  rw [Block.write_fresh (by omega), except_ok_bind, dataReply_of_nonneg _ h0 hlen (by omega) hr,
    except_ok_bind]
  simp [specReply, max_eq_left h0, hlen, Int.add_comm]

theorem checkLog_of_fits {log : List Access} (h : ∀ a ∈ log, a.Fits) : checkLog log = .ok () := by
  have hnone : log.find? (fun a => !decide a.Fits) = none :=
    List.find?_eq_none.mpr fun a ha => by simpa using h a ha
  rw [checkLog, hnone]

theorem serveGetdirtree_payload (path : CString) (hp : 4 + path.bytes.length < 2^31)
    (run : Call → Outcome)
    (ht : ∀ t, (run (.getdirtree path)).tree = some t → t.enc.length + 200 < 2^31 ∧ t.RootsFit) :
    serveGetdirtree ⟨(Call.getdirtree path).payload.length, (Call.getdirtree path).payload⟩ run =
      .ok ⟨.getdirtree path, specReply (.getdirtree path) (run (.getdirtree path))⟩ := by
  have hblk : toSizeT ((path.bytes.length : Int) + 1) = path.bytes.length + 1 := by
    unfold toSizeT; omega
  simp (disch := omega) only [serveGetdirtree, Call.payload, Block.peekInt, Block.peek,
    List.length_append, int32Bytes_length, Block.read_int32Bytes_head, except_pure, except_ok_bind,
    toInt32_leValue_int32Bytes, toInt32_of_lt, hblk, copyPath_payload]
  cases hto : (run (.getdirtree path)).tree with
  | none =>
    simp only [statusReply_fresh _ _ rfl, except_ok_bind, specReply, hto]
    rfl
  | some t =>
    obtain ⟨henc, hroots⟩ := ht t hto
    obtain ⟨r, log, he, hlen, hdata, hfit, -⟩ := serializeTree_spec t henc
    obtain ⟨hsize, hlog⟩ := hfit hroots
    simp only [he, except_ok_bind, checkLog_of_fits hlog, treeReply_eq _ hlen hdata hsize (by omega),
      specReply, hto]

theorem take_four_int32Bytes (x : Int) (l : Bytes) : (int32Bytes x ++ l).take 4 = int32Bytes x :=
  List.take_left' (int32Bytes_length x)

theorem len_field_int32Bytes {x : Int} {rest : Bytes} (h : x = rest.length) (hx : x < 2^31) :
    toInt32 (leValue ((int32Bytes x ++ rest).take 4)) = (int32Bytes x ++ rest).length - 4 := by
  rw [take_four_int32Bytes, toInt32_leValue_int32Bytes, toInt32_of_lt (by omega) hx]
  simp [h]

theorem specReply_len_field (c : Call) (o : Outcome) (ho : o.Servable c) :
    toInt32 (leValue ((specReply c o).take 4)) = (specReply c o).length - 4 := by
  cases c with
  | getdirtree path =>
    cases ht : o.tree with
    | none =>
      simp only [specReply, ht, List.append_assoc]
      exact len_field_int32Bytes (by simp) (by norm_num)
    | some t =>
      have := (ho t ht).1
      simp only [specReply, ht, List.append_assoc]
      exact len_field_int32Bytes (by simp; omega) (by omega)
  | read fd nbyte =>
    simp only [specReply, List.append_assoc]
    rcases ho with ⟨h, hd⟩ | ⟨h0, -, hlen, hr⟩
    · have hm : max o.res 0 = 0 := by omega
      exact len_field_int32Bytes (by simp [hm, hd]) (by omega)
    · exact len_field_int32Bytes (by simp [max_eq_left h0, hlen]; omega) (by omega)
  | getdirentries fd nbyte basep =>
    simp only [specReply, List.append_assoc]
    obtain ⟨h0, -, hlen, hr⟩ := ho
    exact len_field_int32Bytes (by simp [max_eq_left h0, hlen]; omega) (by omega)
  | stat path =>
    simp only [specReply, List.append_assoc]
    exact len_field_int32Bytes (by simp [show o.data.length = statSize from ho, statSize]) (by norm_num [statSize])
  | «open» | close | unlink | write | lseek =>
    simp only [specReply, List.append_assoc]
    exact len_field_int32Bytes (by simp) (by norm_num)

theorem handler_payload (c : Call) (hc : c.WF) (run : Call → Outcome) (ho : (run c).Servable c) :
    ∃ serve, handler c.opId = some serve ∧
      serve ⟨c.payload.length, c.payload⟩ run = .ok ⟨c, specReply c (run c)⟩ := by
  cases c with
  | «open» path flags mode =>
    obtain ⟨h₁, h₂, hm, hp⟩ := hc
    exact ⟨_, rfl, serveOpen_payload path flags mode h₁ h₂ hm hp run⟩
  | close fd => exact ⟨_, rfl, serveClose_payload fd hc.1 hc.2 run⟩
  | write fd data =>
    obtain ⟨h₁, h₂, hd⟩ := hc
    exact ⟨_, rfl, serveWrite_payload fd data h₁ h₂ hd run⟩
  | read fd nbyte =>
    obtain ⟨h₁, h₂, hn⟩ := hc
    exact ⟨_, rfl, serveRead_payload fd nbyte h₁ h₂ hn run ho⟩
  | lseek fd offset whence =>
    obtain ⟨h₁, h₂, h₃, h₄, h₅, h₆⟩ := hc
    exact ⟨_, rfl, serveLseek_payload fd offset whence h₁ h₂ h₃ h₄ h₅ h₆ run⟩
  | stat path => exact ⟨_, rfl, serveStat_payload path hc run ho⟩
  | unlink path => exact ⟨_, rfl, serveUnlink_payload path hc run⟩
  | getdirentries fd nbyte basep =>
    obtain ⟨h₁, h₂, hn, h₃, h₄⟩ := hc
    obtain ⟨h0, hle, hlen, hr⟩ := ho
    exact ⟨_, rfl, serveGetdirentries_payload fd nbyte basep h₁ h₂ hn h₃ h₄ run h0 hle hlen hr⟩
  | getdirtree path => exact ⟨_, rfl, serveGetdirtree_payload path hc run ho⟩

/-- On every well-formed request and servable outcome, `serve` dispatches to a handler that makes
exactly the request's call and sends exactly §4.2's reply, whose `reply_len` is its length less 4. -/
theorem handler_contract (c : Call) (hc : c.WF) (run : Call → Outcome) (ho : (run c).Servable c) :
    (∃ serve, handler c.opId = some serve ∧
      serve ⟨c.payload.length, c.payload⟩ run = .ok ⟨c, specReply c (run c)⟩) ∧
    toInt32 (leValue ((specReply c (run c)).take 4)) = (specReply c (run c)).length - 4 :=
  ⟨handler_payload c hc run ho, specReply_len_field c (run c) ho⟩

theorem handler_contract_read :
    (Call.read 3 4).WF ∧ (⟨2, 0, [104, 105], none⟩ : Outcome).Servable (.read 3 4) ∧
    (∃ serve, handler (Call.read 3 4).opId = some serve ∧
      serve ⟨(Call.read 3 4).payload.length, (Call.read 3 4).payload⟩ (fun _ => ⟨2, 0, [104, 105], none⟩) =
        .ok ⟨.read 3 4, specReply (.read 3 4) ⟨2, 0, [104, 105], none⟩⟩) ∧
    toInt32 (leValue ((specReply (.read 3 4) ⟨2, 0, [104, 105], none⟩).take 4)) =
      (specReply (.read 3 4) ⟨2, 0, [104, 105], none⟩).length - 4 := by
  have hc : (Call.read 3 4).WF := by simp [Call.WF]
  have ho : (⟨2, 0, [104, 105], none⟩ : Outcome).Servable (.read 3 4) := by
    simp [Outcome.Servable]
  exact ⟨hc, ho, handler_contract (.read 3 4) hc (fun _ => ⟨2, 0, [104, 105], none⟩) ho⟩

/-- A failed `getdirentries` gets no reply: its `errno` is written past the 15-byte block. -/
theorem serveGetdirentries_faults_on_failure (fd : Int) (nbyte : Nat) (basep : Int)
    (h₁ : -2^31 ≤ fd) (h₂ : fd < 2^31) (hn : nbyte < 2^64) (h₃ : -2^63 ≤ basep) (h₄ : basep < 2^63)
    (run : Call → Outcome) (hres : (run (.getdirentries fd nbyte basep)).res = -1)
    (hdata : (run (.getdirentries fd nbyte basep)).data = []) :
    serveGetdirentries ⟨(Call.getdirentries fd nbyte basep).payload.length,
      (Call.getdirentries fd nbyte basep).payload⟩ run = .error (.fault 15 12 4) := by
  simp (disch := omega) only [serveGetdirentries, Call.payload, Block.peekInt, Block.peek,
    List.length_append, int32Bytes_length, int64Bytes_length, leBytes_length,
    Block.read_int32Bytes_head, Block.read_int32Bytes_skip, Block.read_leBytes_head,
    Block.read_leBytes_skip, Block.read_int64Bytes_all, except_pure, except_ok_bind, Nat.reduceSub,
    leValue_leBytes, Nat.mod_eq_of_lt, toInt32_leValue_int32Bytes, toInt64_leValue_int64Bytes,
    toInt32_of_lt, toInt64_of_lt, hdata, hres]
  rw [Block.write_fresh (by simp), except_ok_bind, dataReply_neg_one]
  rfl

theorem serveGetdirentries_faults_on_failure_bad_fd :
    (-2^31 ≤ (-10 : Int) ∧ (-10 : Int) < 2^31 ∧ 512 < 2^64 ∧ -2^63 ≤ (0 : Int) ∧ (0 : Int) < 2^63) ∧
    serveGetdirentries ⟨(Call.getdirentries (-10) 512 0).payload.length,
      (Call.getdirentries (-10) 512 0).payload⟩ (fun _ => ⟨-1, 9, [], none⟩) = .error (.fault 15 12 4) :=
  ⟨by norm_num, serveGetdirentries_faults_on_failure (-10) 512 0 (by norm_num) (by norm_num)
    (by norm_num) (by norm_num) (by norm_num) _ rfl rfl⟩

/-- `getdirentries(-10, buf, 512, &basep)` of test2.c: `errno` lands at offset 12 of 15 bytes. -/
theorem serveGetdirentries_bad_fd_faults :
    serveGetdirentries ⟨(Call.getdirentries (-10) 512 0).payload.length,
      (Call.getdirentries (-10) 512 0).payload⟩ (fun _ => ⟨-1, 9, [], none⟩) =
      .error (.fault 15 12 4) := by
  rfl

/-- §4.2's fixed-size fields at the head of each op's payload, in bytes. -/
def fixedLen (fID : Int) : Nat :=
  if fID = 0 ∨ fID = 4 then 16 else if fID = 2 ∨ fID = 3 then 12 else if fID = 7 then 20 else 4

theorem fixedLen_le (fID : Int) : fixedLen fID ≤ 20 := by
  unfold fixedLen; split_ifs <;> norm_num

def ReadsPast {α : Type} (size : Nat) (r : Except Stop α) : Prop :=
  ∃ off n, size < off + n ∧ r = .error (.fault size off n)

section Truncated

variable {payload : Bytes} {run : Call → Outcome}

theorem serveOpen_short (h : payload.length < 16) :
    ReadsPast payload.length (serveOpen ⟨payload.length, payload⟩ run) := by
  rcases (by omega : payload.length < 4 ∨ 4 ≤ payload.length ∧ payload.length < 8 ∨ 8 ≤ payload.length) with h | h | h <;>
    [refine ⟨0, 4, h, ?_⟩; refine ⟨4, 4, by omega, ?_⟩; refine ⟨8, 8, by omega, ?_⟩] <;>
    simp (disch := omega) only [serveOpen, Block.peekInt, Block.peek, Block.read_mk_of_lt,
      Block.read_mk_of_le, except_ok_bind, except_error_bind, except_pure]

theorem serveClose_short (h : payload.length < 4) :
    ReadsPast payload.length (serveClose ⟨payload.length, payload⟩ run) :=
  ⟨0, 4, h, by simp (disch := omega) only [serveClose, Block.peekInt, Block.peek,
    Block.read_mk_of_lt, except_error_bind]⟩

theorem serveWrite_short (h : payload.length < 12) :
    ReadsPast payload.length (serveWrite ⟨payload.length, payload⟩ run) := by
  rcases (by omega : payload.length < 4 ∨ 4 ≤ payload.length) with h | h <;>
    [refine ⟨0, 4, h, ?_⟩; refine ⟨4, 8, by omega, ?_⟩] <;>
    simp (disch := omega) only [serveWrite, Block.peekInt, Block.peek, Block.read_mk_of_lt,
      Block.read_mk_of_le, except_ok_bind, except_error_bind, except_pure]

theorem serveRead_short (h : payload.length < 12) :
    ReadsPast payload.length (serveRead ⟨payload.length, payload⟩ run) := by
  rcases (by omega : payload.length < 4 ∨ 4 ≤ payload.length) with h | h <;>
    [refine ⟨0, 4, h, ?_⟩; refine ⟨4, 8, by omega, ?_⟩] <;>
    simp (disch := omega) only [serveRead, Block.peekInt, Block.peek, Block.read_mk_of_lt,
      Block.read_mk_of_le, except_ok_bind, except_error_bind, except_pure]

theorem serveLseek_short (h : payload.length < 16) :
    ReadsPast payload.length (serveLseek ⟨payload.length, payload⟩ run) := by
  rcases (by omega : payload.length < 4 ∨ 4 ≤ payload.length ∧ payload.length < 12 ∨ 12 ≤ payload.length) with h | h | h <;>
    [refine ⟨0, 4, h, ?_⟩; refine ⟨4, 8, by omega, ?_⟩; refine ⟨12, 4, by omega, ?_⟩] <;>
    simp (disch := omega) only [serveLseek, Block.peekInt, Block.peekOff, Block.peek,
      Block.read_mk_of_lt, Block.read_mk_of_le, except_ok_bind, except_error_bind, except_pure]

theorem serveStat_short (h : payload.length < 4) :
    ReadsPast payload.length (serveStat ⟨payload.length, payload⟩ run) :=
  ⟨0, 4, h, by simp (disch := omega) only [serveStat, Block.peekInt, Block.peek,
    Block.read_mk_of_lt, except_error_bind]⟩

theorem serveUnlink_short (h : payload.length < 4) :
    ReadsPast payload.length (serveUnlink ⟨payload.length, payload⟩ run) :=
  ⟨0, 4, h, by simp (disch := omega) only [serveUnlink, Block.peekInt, Block.peek,
    Block.read_mk_of_lt, except_error_bind]⟩

theorem serveGetdirentries_short (h : payload.length < 20) :
    ReadsPast payload.length (serveGetdirentries ⟨payload.length, payload⟩ run) := by
  rcases (by omega : payload.length < 4 ∨ 4 ≤ payload.length ∧ payload.length < 12 ∨ 12 ≤ payload.length) with h | h | h <;>
    [refine ⟨0, 4, h, ?_⟩; refine ⟨4, 8, by omega, ?_⟩; refine ⟨12, 8, by omega, ?_⟩] <;>
    simp (disch := omega) only [serveGetdirentries, Block.peekInt, Block.peek,
      Block.read_mk_of_lt, Block.read_mk_of_le, except_ok_bind, except_error_bind, except_pure]

theorem serveGetdirtree_short (h : payload.length < 4) :
    ReadsPast payload.length (serveGetdirtree ⟨payload.length, payload⟩ run) :=
  ⟨0, 4, h, by simp (disch := omega) only [serveGetdirtree, Block.peekInt, Block.peek,
    Block.read_mk_of_lt, except_error_bind]⟩

end Truncated

/-- Every handler, on a payload shorter than its op's fixed fields, reads past the buffer first. -/
theorem handler_reads_past (fID : Int) (serve : Block → (Call → Outcome) → Except Stop Served)
    (hh : handler fID = some serve) (payload : Bytes) (hshort : payload.length < fixedLen fID)
    (run : Call → Outcome) : ReadsPast payload.length (serve ⟨payload.length, payload⟩ run) := by
  rcases handler_eq_some hh with ⟨rfl, rfl⟩ | ⟨rfl, rfl⟩ | ⟨rfl, rfl⟩ | ⟨rfl, rfl⟩ | ⟨rfl, rfl⟩ |
    ⟨rfl, rfl⟩ | ⟨rfl, rfl⟩ | ⟨rfl, rfl⟩ | ⟨rfl, rfl⟩
  · exact serveOpen_short hshort
  · exact serveClose_short hshort
  · exact serveWrite_short hshort
  · exact serveRead_short hshort
  · exact serveLseek_short hshort
  · exact serveStat_short hshort
  · exact serveUnlink_short hshort
  · exact serveGetdirentries_short hshort
  · exact serveGetdirtree_short hshort

end RemoteFileIO
