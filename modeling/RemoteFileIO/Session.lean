import RemoteFileIO.Transport
import RemoteFileIO.Handlers

/-! A session as the forked child runs it: `serve` until it returns -1. `serve` reads the 8-byte
header with one `recv` into the stack array `op`, the payload with `receiveAll`, then runs the
handler of `op_id` and sends its reply. The environment is a parameter of every result. -/

namespace RemoteFileIO

/-- The file system as a session sees it: a call's outcome given the session's earlier calls. -/
def FileSystem := List Call → Call → Outcome

/-- What the server does not control: the transport, the file system, and what the stack array
`op` holds before a header arrives at each stream position. -/
structure Env where
  link : Link
  fs : FileSystem
  stale : Nat → Bytes

inductive Event
  | dispatch (fID : Int) (payload : Bytes)
  | reply (bytes : Bytes)
  deriving DecidableEq

/-- The child process of a session: its socket, the calls it made, and what it did. -/
structure Proc where
  conn : Conn
  calls : List Call
  events : List Event

/-- The session socket in every child: `socket` gave 3, which the child closes; `accept` gave 4. -/
def sessfd : Int := 4

def Call.fildes : Call → Option Int
  | .close fd | .write fd _ | .read fd _ | .lseek fd _ _ | .getdirentries fd _ _ => some fd
  | .open .. | .stat _ | .unlink _ | .getdirtree _ => none

/-- The rest of `serve`: `receiveAll` into the stack array `buf`, then the handler of `fID`, whose
reply is sent. `true` is `return 0`; a call on `sessfd` ends the model's run. -/
def serveRequest (env : Env) (fuel : Nat) (p : Proc) (conn : Conn) (fID bufSize : Int) :
    Except Stop (Bool × Proc) :=
  if bufSize < 0 then .error .undefined
  else do
    let s ← receiveAll env.link bufSize fuel (recvStart ⟨bufSize.toNat, []⟩ bufSize conn)
    match handler fID with
    | none => return (false, { p with conn := s.conn })
    | some h =>
      let served ← h s.buf (env.fs p.calls)
      if served.call.fildes = some sessfd then .error .socket
      else return (true, ⟨send env.link s.conn served.reply, p.calls ++ [served.call],
        p.events ++ [.dispatch fID s.buf.data, .reply served.reply]⟩)

/-- `serve`: one `recv` of up to 8 header bytes into the stack array `op`, then the request. -/
def serve (env : Env) (fuel : Nat) (p : Proc) : Except Stop (Bool × Proc) :=
  let r := recv env.link p.conn 8
  if r.rv ≤ 0 then
    if r.rv < 0 then .error .exit else .ok (false, { p with conn := r.conn })
  else do
    let op : Block := ⟨8, storeAt (env.stale p.conn.pos) 0 r.got⟩
    serveRequest env fuel p r.conn (← op.peekInt 0) (← op.peekInt 4)

/-- The child's loop `while (1) if (serve(sessfd) == -1) break;`, one unit of fuel a pass. -/
def session (env : Env) : Nat → Proc → Except Stop Proc
  | 0, _ => .error .fuel
  | fuel + 1, p => do
    let (more, p) ← serve env fuel p
    if more then session env fuel p else .ok p

def Proc.start (stream : Bytes) : Proc := ⟨⟨stream, 0, [], 0⟩, [], []⟩

/-- A request frame (§3): `op_id`, `payload_len`, and the payload laid out as §4.2 says. -/
def frame (c : Call) : Bytes := int32Bytes c.opId ++ int32Bytes c.payload.length ++ c.payload

def frames (cs : List Call) : Bytes := cs.flatMap frame

/-- What §4.3 says a session does with `cs` after the calls `done`: each dispatched and answered. -/
def specEvents (fs : FileSystem) : List Call → List Call → List Event
  | _, [] => []
  | done, c :: cs =>
    .dispatch c.opId c.payload :: .reply (specReply c (fs done c)) :: specEvents fs (done ++ [c]) cs

def AllServable (fs : FileSystem) : List Call → List Call → Prop
  | _, [] => True
  | done, c :: cs => c.WF ∧ (fs done c).Servable c ∧ AllServable fs (done ++ [c]) cs

def Link.HeadersWhole (link : Link) : Nat → List Call → Prop
  | _, [] => True
  | pos, c :: cs =>
    (∃ k, 8 ≤ k ∧ link.recvSeg pos = some k) ∧ link.HeadersWhole (pos + (frame c).length) cs

def loopbackEnv : Env :=
  ⟨⟨fun _ => some 200, fun _ => .whole⟩, fun _ _ => ⟨0, 0, [], none⟩, fun _ => List.replicate 8 0⟩

section Serve

variable {env : Env} {p : Proc}

theorem serve_eof {fuel : Nat} (h : p.conn.stream.length ≤ p.conn.pos) :
    serve env fuel p = .ok (false, p) := by
  simp [serve, recv_eof env.link 8 h]

theorem serve_header {fuel k : Nat} {fID bufSize : Int} {rest : Bytes}
    (hk : env.link.recvSeg p.conn.pos = some k) (h8 : 8 ≤ k)
    (hs : p.conn.stream.drop p.conn.pos = int32Bytes fID ++ int32Bytes bufSize ++ rest)
    (hf₁ : -2^31 ≤ fID) (hf₂ : fID < 2^31) (hb₁ : -2^31 ≤ bufSize) (hb₂ : bufSize < 2^31) :
    serve env fuel p = serveRequest env fuel p { p.conn with pos := p.conn.pos + 8 } fID bufSize := by
  have hlen : p.conn.pos + 8 ≤ p.conn.stream.length := by
    have := congrArg List.length hs
    simp only [List.length_drop, List.length_append, int32Bytes_length] at this
    omega
  have hgot : (p.conn.stream.drop p.conn.pos).take 8 = int32Bytes fID ++ int32Bytes bufSize := by
    rw [hs, List.take_left' (by simp)]
  simp (disch := omega) only [serve, recv_whole hk h8 hlen (by norm_num), hgot, storeAt_zero,
    Block.peekInt, Block.peek, List.append_assoc, Block.read_int32Bytes_head,
    Block.read_int32Bytes_skip, Nat.reduceSub, except_pure, except_ok_bind,
    toInt32_leValue_int32Bytes, toInt32_of_lt]
  exact if_neg (by norm_num)

theorem serveRequest_stalls {fuel : Nat} {conn : Conn} {fID : Int} {bufSize : Nat}
    (hb : bufSize < 2^31) (hpos : conn.pos ≤ conn.stream.length)
    (hshort : conn.stream.length < conn.pos + bufSize)
    (hok : ∀ q < conn.stream.length, (env.link.recvSeg q).isSome) :
    serveRequest env fuel p conn fID bufSize = .error .fuel := by
  rw [serveRequest, if_neg (by omega),
    receiveAll_stalls (by omega) (by simpa using hshort) hok fuel (recvInv_start (by omega) hpos)]
  rfl

theorem serveRequest_call {fuel : Nat} {conn : Conn} {c : Call} {rest : Bytes} (hc : c.WF)
    (hsock : c.fildes ≠ some sessfd) (ho : (env.fs p.calls c).Servable c)
    (hpos : conn.pos ≤ conn.stream.length)
    (hs : conn.stream.drop conn.pos = c.payload ++ rest)
    (hok : ∀ q < conn.stream.length, (env.link.recvSeg q).isSome) (hfuel : c.payload.length < fuel) :
    serveRequest env fuel p conn c.opId c.payload.length =
      .ok (true, ⟨send env.link { conn with pos := conn.pos + c.payload.length }
        (specReply c (env.fs p.calls c)), p.calls ++ [c],
        p.events ++ [.dispatch c.opId c.payload, .reply (specReply c (env.fs p.calls c))]⟩) := by
  have hlen := hc.payload_length_lt
  obtain ⟨s, he, hbuf, hconn⟩ := receiveAll_payload fuel hlen hpos hs hok hfuel
  obtain ⟨h, hh, hrun⟩ := handler_payload c hc (env.fs p.calls) ho
  simp only [serveRequest, if_neg (show ¬ ((c.payload.length : Int) < 0) by omega), Int.toNat_ofNat,
    he, except_ok_bind, hh, hbuf, hrun, hconn, hsock, if_false]
  rfl

theorem serveRequest_unknown {fuel : Nat} {conn : Conn} {fID : Int} {payload rest : Bytes}
    (hf : handler fID = none) (hlen : payload.length < 2^31) (hpos : conn.pos ≤ conn.stream.length)
    (hs : conn.stream.drop conn.pos = payload ++ rest)
    (hok : ∀ q < conn.stream.length, (env.link.recvSeg q).isSome) (hfuel : payload.length < fuel) :
    serveRequest env fuel p conn fID payload.length =
      .ok (false, { p with conn := { conn with pos := conn.pos + payload.length } }) := by
  obtain ⟨s, he, -, hconn⟩ := receiveAll_payload fuel hlen hpos hs hok hfuel
  simp only [serveRequest, if_neg (show ¬ ((payload.length : Int) < 0) by omega), Int.toNat_ofNat,
    he, except_ok_bind, hf, hconn]
  rfl

theorem serve_call {k : Nat} {c : Call} {rest : Bytes}
    (hk : env.link.recvSeg p.conn.pos = some k) (h8 : 8 ≤ k)
    (hs : p.conn.stream.drop p.conn.pos = frame c ++ rest) (hc : c.WF)
    (hsock : c.fildes ≠ some sessfd) (ho : (env.fs p.calls c).Servable c)
    (hok : ∀ q < p.conn.stream.length, (env.link.recvSeg q).isSome) (fuel : Nat)
    (hfuel : c.payload.length < fuel) :
    ∃ p', serve env fuel p = .ok (true, p') ∧
      p'.conn = send env.link { p.conn with pos := p.conn.pos + (frame c).length }
        (specReply c (env.fs p.calls c)) ∧ p'.calls = p.calls ++ [c] ∧
      p'.events = p.events ++ [.dispatch c.opId c.payload, .reply (specReply c (env.fs p.calls c))] := by
  have hlen := hc.payload_length_lt
  have hop := c.opId_le
  have hs' : p.conn.stream.drop p.conn.pos =
      int32Bytes c.opId ++ int32Bytes c.payload.length ++ (c.payload ++ rest) := by
    rw [hs, frame, List.append_assoc]
  have hpos : p.conn.pos + 8 ≤ p.conn.stream.length := by
    have := congrArg List.length hs'
    simp only [List.length_drop, List.length_append, int32Bytes_length] at this
    omega
  have hrest : ({ p.conn with pos := p.conn.pos + 8 } : Conn).stream.drop
      ({ p.conn with pos := p.conn.pos + 8 } : Conn).pos = c.payload ++ rest := by
    rw [← List.drop_drop, hs']; rfl
  have hframe : (frame c).length = 8 + c.payload.length := by simp [frame]; omega
  refine ⟨⟨_, _, _⟩, ?_, rfl, rfl, rfl⟩
  rw [serve_header hk h8 hs' (by omega) (by omega) (by omega) (by omega),
    serveRequest_call hc hsock ho (by simpa using hpos) hrest hok hfuel]
  simp only [hframe, Nat.add_assoc]
  rfl

end Serve

def Event.replyBytes : Event → Option Bytes
  | .reply b => some b
  | .dispatch .. => none

def Event.replies (es : List Event) : List Bytes := es.filterMap Event.replyBytes

@[simp] theorem Event.replies_append (es es' : List Event) :
    Event.replies (es ++ es') = Event.replies es ++ Event.replies es' :=
  List.filterMap_append _ _ _

@[simp] theorem Event.replies_dispatch_reply (fID : Int) (payload reply : Bytes) :
    Event.replies [.dispatch fID payload, .reply reply] = [reply] := rfl

def Event.dispatchOf : Event → Option (Int × Bytes)
  | .dispatch fID payload => some (fID, payload)
  | .reply _ => none

def Event.dispatches (es : List Event) : List (Int × Bytes) := es.filterMap Event.dispatchOf

@[simp] theorem Event.dispatches_append (es es' : List Event) :
    Event.dispatches (es ++ es') = Event.dispatches es ++ Event.dispatches es' :=
  List.filterMap_append _ _ _

@[simp] theorem Event.dispatches_dispatch_reply (fID : Int) (payload reply : Bytes) :
    Event.dispatches [.dispatch fID payload, .reply reply] = [(fID, payload)] := rfl

section Cases

variable {env : Env} {p p' : Proc} {fuel : Nat} {more : Bool}

theorem serveRequest_cases {conn : Conn} {fID bufSize : Int} (hb : bufSize < 2^31)
    (h : serveRequest env fuel p conn fID bufSize = .ok (more, p')) :
    ∃ c : Conn, c.wire = conn.wire ∧ c.sends = conn.sends ∧ c.stream = conn.stream ∧
      (conn.pos ≤ conn.stream.length → c.pos ≤ c.stream.length) ∧
      (more = false ∧ p' = { p with conn := c } ∨
        more = true ∧ ∃ (call : Call) (fID' : Int) (buf : Block) (reply : Bytes),
          p' = ⟨send env.link c reply, p.calls ++ [call],
            p.events ++ [.dispatch fID' buf.data, .reply reply]⟩ ∧
          (∃ hd, handler fID' = some hd ∧ hd buf (env.fs p.calls) = .ok ⟨call, reply⟩) ∧
          call.fildes ≠ some sessfd ∧ (conn.pos ≤ conn.stream.length →
            buf = ⟨buf.data.length, buf.data⟩ ∧ buf.data.length < 2^31 ∧ buf.data <:+: conn.stream)) := by
  unfold serveRequest at h
  split at h
  · cases h
  obtain ⟨s, hs, h⟩ := except_bind_eq_ok h
  obtain ⟨hw, hsn, hst⟩ := receiveAll_sends_nothing fuel hs
  have hread := fun hpos => receiveAll_ok (by omega) hb hpos hs
  have hpos : conn.pos ≤ conn.stream.length → s.conn.pos ≤ s.conn.stream.length := fun hpos => by
    obtain ⟨-, hc, hle⟩ := hread hpos
    rw [hc]; exact hle
  split at h
  · cases h; exact ⟨s.conn, hw, hsn, hst, hpos, .inl ⟨rfl, rfl⟩⟩
  · obtain ⟨⟨call, reply⟩, hsv, h⟩ := except_bind_eq_ok h
    split at h
    · cases h
    cases h
    refine ⟨s.conn, hw, hsn, hst, hpos, .inr ⟨rfl, _, _, _, _, rfl, ⟨_, ‹_›, hsv⟩, ‹_›, fun hp => ?_⟩⟩
    obtain ⟨hbuf, -, hle⟩ := hread hp
    rw [hbuf]
    refine ⟨?_, by simp; omega, (List.take_prefix _ _).isInfix.trans (List.drop_suffix _ _).isInfix⟩
    simp only [Block.mk.injEq, List.length_take, List.length_drop, and_true]
    omega

theorem serve_cases (h : serve env fuel p = .ok (more, p')) :
    ∃ c : Conn, c.wire = p.conn.wire ∧ c.sends = p.conn.sends ∧ c.stream = p.conn.stream ∧
      (p.conn.pos ≤ p.conn.stream.length → c.pos ≤ c.stream.length) ∧
      (more = false ∧ p' = { p with conn := c } ∨
        more = true ∧ ∃ (call : Call) (fID : Int) (buf : Block) (reply : Bytes),
          p' = ⟨send env.link c reply, p.calls ++ [call],
            p.events ++ [.dispatch fID buf.data, .reply reply]⟩ ∧
          (∃ hd, handler fID = some hd ∧ hd buf (env.fs p.calls) = .ok ⟨call, reply⟩) ∧
          call.fildes ≠ some sessfd ∧ (p.conn.pos ≤ p.conn.stream.length →
            buf = ⟨buf.data.length, buf.data⟩ ∧ buf.data.length < 2^31 ∧ buf.data <:+: p.conn.stream)) := by
  have hrecv : p.conn.pos ≤ p.conn.stream.length →
      (recv env.link p.conn 8).conn.pos ≤ (recv env.link p.conn 8).conn.stream.length :=
    fun hp => by simpa using recv_pos_le env.link 8 hp
  unfold serve at h
  dsimp only at h
  split at h
  · split at h
    · cases h
    · cases h
      exact ⟨_, recv_conn_wire .., recv_conn_sends .., recv_conn_stream .., hrecv, .inl ⟨rfl, rfl⟩⟩
  · obtain ⟨fID, -, h⟩ := except_bind_eq_ok h
    obtain ⟨bufSize, hb, h⟩ := except_bind_eq_ok h
    obtain ⟨v, -, hv⟩ := except_bind_eq_ok hb
    obtain rfl : toInt32 v = bufSize := Except.ok.inj hv
    obtain ⟨c, hw, hs, hst, hpos, hc⟩ := serveRequest_cases (toInt32_range v).2 h
    refine ⟨c, hw.trans (recv_conn_wire ..), hs.trans (recv_conn_sends ..),
      hst.trans (recv_conn_stream ..), fun hp => hpos (hrecv hp), ?_⟩
    rcases hc with hc | ⟨hm, call, fID', buf, reply, hp', hh, hsock, hbuf⟩
    · exact .inl hc
    · exact .inr ⟨hm, call, fID', buf, reply, hp', hh, hsock, fun hp => by simpa using hbuf (hrecv hp)⟩

end Cases

/-- The states a session passes through, one `serve` at a time, before UB or a call on `sessfd`. -/
inductive Reach (env : Env) (p₀ : Proc) : Proc → Prop
  | start : Reach env p₀ p₀
  | step {p p' : Proc} {fuel : Nat} {more : Bool} :
    Reach env p₀ p → serve env fuel p = .ok (more, p') → Reach env p₀ p'

theorem Reach.of_session {env : Env} {p₀ q p : Proc} (hq : Reach env p₀ q) (fuel : Nat)
    (h : session env fuel q = .ok p) : Reach env p₀ p := by
  induction fuel generalizing q with
  | zero => cases h
  | succ fuel ih =>
    rw [session] at h
    obtain ⟨⟨more, q'⟩, hs, h⟩ := except_bind_eq_ok h
    cases more
    · cases h; exact hq.step hs
    · exact ih (hq.step hs) h

/-- What the client has received: each reply sent so far, in order, as its `send` delivered it. -/
def WireInv (link : Link) (p : Proc) : Prop :=
  p.conn.wire = link.delivered 0 (Event.replies p.events) ∧
    p.conn.sends = (Event.replies p.events).length

theorem serve_wireInv {env : Env} {p p' : Proc} {fuel : Nat} {more : Bool}
    (h : serve env fuel p = .ok (more, p')) (hi : WireInv env.link p) : WireInv env.link p' := by
  obtain ⟨c, hw, hs, -, -, ⟨-, rfl⟩ | ⟨-, call, fID, buf, reply, rfl, -⟩⟩ := serve_cases h
  · exact ⟨hw.trans hi.1, hs.trans hi.2⟩
  · refine ⟨?_, by simp [send, hs, hi.2]⟩
    simp only [send, Event.replies_append, Event.replies_dispatch_reply, Link.delivered_append, hw,
      hs, hi.1, hi.2, Nat.zero_add]

theorem Reach.wireInv {env : Env} {stream : Bytes} {p : Proc} (h : Reach env (Proc.start stream) p) :
    WireInv env.link p := by
  induction h with
  | start => exact ⟨rfl, rfl⟩
  | step _ hs ih => exact serve_wireInv hs ih

def shortSendEnv : Env :=
  ⟨⟨fun _ => some 200, fun i => if i = 0 then .part 5 else .whole⟩, fun _ _ => ⟨-1, 9, [], none⟩,
    fun _ => List.replicate 8 0⟩

/-- A `send` cut short does not end the session; the client's bytes are no prefix of the replies. -/
theorem session_short_send_tears :
    ∃ p, session shortSendEnv 20 (Proc.start (frames [.close 5, .close 6])) = .ok p ∧
      ¬ p.conn.wire <+: specReply (.close 5) ⟨-1, 9, [], none⟩ ++ specReply (.close 6) ⟨-1, 9, [], none⟩ :=
  ⟨_, rfl, by decide⟩

def splitEnv : Env :=
  ⟨⟨fun _ => some 4, fun _ => .whole⟩, fun _ _ => ⟨0, 0, [], none⟩, fun _ => List.replicate 8 0⟩

/-- A split header: `payload_len` is what `op` held (0), and `close` reads past its empty buffer. -/
theorem session_split_header_faults (fuel : Nat) :
    session splitEnv (fuel + 2) (Proc.start (frames [.close 3])) = .error (.fault 0 0 4) := by
  rfl

/-- An unknown op id ends the session after its payload is read, with no call made and no reply. -/
theorem session_unknown_op_ends (env : Env) (p : Proc) (fID : Int) (payload rest : Bytes)
    (fuel : Nat) (hf : fID < 0 ∨ 8 < fID) (hf₁ : -2^31 ≤ fID) (hf₂ : fID < 2^31)
    (hlen : payload.length < 2^31)
    (hs : p.conn.stream.drop p.conn.pos = int32Bytes fID ++ int32Bytes payload.length ++ (payload ++ rest))
    (hk : ∃ k, 8 ≤ k ∧ env.link.recvSeg p.conn.pos = some k)
    (hok : ∀ q < p.conn.stream.length, (env.link.recvSeg q).isSome) (hfuel : payload.length + 1 < fuel) :
    session env fuel p = .ok { p with conn := { p.conn with pos := p.conn.pos + 8 + payload.length } } := by
  obtain ⟨k, h8, hk⟩ := hk
  obtain ⟨f, rfl⟩ : ∃ f, fuel = f + 1 := ⟨fuel - 1, by omega⟩
  have hpos : p.conn.pos + 8 ≤ p.conn.stream.length := by
    have := congrArg List.length hs
    simp only [List.length_drop, List.length_append, int32Bytes_length] at this
    omega
  have hrest : ({ p.conn with pos := p.conn.pos + 8 } : Conn).stream.drop
      ({ p.conn with pos := p.conn.pos + 8 } : Conn).pos = payload ++ rest := by
    rw [← List.drop_drop, hs]; rfl
  rw [session, serve_header hk h8 hs hf₁ hf₂ (by omega) (by omega),
    serveRequest_unknown (handler_eq_none hf) hlen (by simpa using hpos) hrest hok (by omega)]
  rfl

theorem session_unknown_op_ends_loopback :
    session loopbackEnv 10 (Proc.start (int32Bytes 9 ++ int32Bytes 2 ++ ([7, 7] ++ []))) =
      .ok ⟨⟨int32Bytes 9 ++ int32Bytes 2 ++ ([7, 7] ++ []), 10, [], 0⟩, [], []⟩ :=
  session_unknown_op_ends loopbackEnv _ 9 [7, 7] [] 10 (by norm_num) (by norm_num) (by norm_num)
    (by norm_num) rfl ⟨200, by norm_num, rfl⟩ (fun _ _ => rfl) (by norm_num)

/-- A known op id, its payload shorter than its fixed fields: the handler reads past the buffer. -/
theorem session_short_payload_faults (env : Env) (p : Proc) (fID : Int) (payload rest : Bytes)
    (fuel : Nat) (h₀ : 0 ≤ fID) (h₈ : fID ≤ 8) (hshort : payload.length < fixedLen fID)
    (hs : p.conn.stream.drop p.conn.pos = int32Bytes fID ++ int32Bytes payload.length ++ (payload ++ rest))
    (hk : ∃ k, 8 ≤ k ∧ env.link.recvSeg p.conn.pos = some k)
    (hok : ∀ q < p.conn.stream.length, (env.link.recvSeg q).isSome) (hfuel : payload.length + 1 < fuel) :
    ReadsPast payload.length (session env fuel p) := by
  obtain ⟨k, h8, hk⟩ := hk
  obtain ⟨serve, hserve⟩ := handler_of_le h₀ h₈
  obtain ⟨f, rfl⟩ : ∃ f, fuel = f + 1 := ⟨fuel - 1, by omega⟩
  have hlen : payload.length < 2^31 := by have := fixedLen_le fID; omega
  have hpos : p.conn.pos + 8 ≤ p.conn.stream.length := by
    have := congrArg List.length hs
    simp only [List.length_drop, List.length_append, int32Bytes_length] at this
    omega
  have hrest : ({ p.conn with pos := p.conn.pos + 8 } : Conn).stream.drop
      ({ p.conn with pos := p.conn.pos + 8 } : Conn).pos = payload ++ rest := by
    rw [← List.drop_drop, hs]; rfl
  obtain ⟨s, he, hbuf, -⟩ := receiveAll_payload f hlen (by simpa using hpos) hrest hok (by omega)
  obtain ⟨off, n, hlt, hfault⟩ := handler_reads_past fID serve hserve payload hshort (env.fs p.calls)
  refine ⟨off, n, hlt, ?_⟩
  rw [session, serve_header hk h8 hs (by omega) (by omega) (by omega) (by omega)]
  simp only [serveRequest, if_neg (show ¬ ((payload.length : Int) < 0) by omega), Int.toNat_ofNat,
    he, except_ok_bind, hserve, hbuf, hfault, except_error_bind]

theorem session_short_payload_faults_open :
    ReadsPast ([0, 0, 0, 0] : Bytes).length
      (session loopbackEnv 10 (Proc.start (int32Bytes 0 ++ int32Bytes 4 ++ ([0, 0, 0, 0] ++ [])))) :=
  session_short_payload_faults loopbackEnv _ 0 [0, 0, 0, 0] [] 10 le_rfl (by norm_num) (by decide)
    rfl ⟨200, by norm_num, rfl⟩ (fun _ _ => rfl) (by norm_num)

/-- An `open` whose payload holds only `flags`: `serveOpen` reads `mode` past the 4-byte buffer. -/
theorem session_short_open_faults (fuel : Nat) :
    session loopbackEnv (fuel + 3) (Proc.start (int32Bytes 0 ++ int32Bytes 4 ++ [0, 0, 0, 0])) =
      .error (.fault 4 4 4) := by
  rfl

theorem session_stalls (env : Env) (p : Proc) (fID : Int) (bufSize : Nat) (rest : Bytes) {k : Nat}
    (hk : env.link.recvSeg p.conn.pos = some k) (h8 : 8 ≤ k)
    (hs : p.conn.stream.drop p.conn.pos = int32Bytes fID ++ int32Bytes bufSize ++ rest)
    (hf₁ : -2^31 ≤ fID) (hf₂ : fID < 2^31) (hb : bufSize < 2^31) (hshort : rest.length < bufSize)
    (hok : ∀ q < p.conn.stream.length, (env.link.recvSeg q).isSome) (fuel : Nat) :
    session env fuel p = .error .fuel := by
  cases fuel with
  | zero => rfl
  | succ fuel =>
    have hlen := congrArg List.length hs
    simp only [List.length_drop, List.length_append, int32Bytes_length] at hlen
    rw [session, serve_header hk h8 hs hf₁ hf₂ (by omega) (by omega),
      serveRequest_stalls hb ?_ ?_ ?_]
    · rfl
    · simp only; omega
    · simp only; omega
    · exact hok

/-- A client that closes after 3 of the 5 payload bytes it announced: the session never ends. -/
theorem session_early_close_diverges (fuel : Nat) :
    session loopbackEnv fuel (Proc.start (int32Bytes 1 ++ int32Bytes 5 ++ [1, 2, 3])) = .error .fuel :=
  session_stalls loopbackEnv (Proc.start (int32Bytes 1 ++ int32Bytes 5 ++ [1, 2, 3])) 1 5 [1, 2, 3]
    rfl (by norm_num) rfl (by norm_num) (by norm_num) (by norm_num) (by decide) (fun _ _ => rfl) fuel

end RemoteFileIO
