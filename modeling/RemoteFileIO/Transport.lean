import RemoteFileIO.Wire

/-! The session socket as the server sees it, and `receiveAll`. The transport (how the
client's stream is cut into `recv` results, how much of each reply a `send` delivers) is a
parameter, so every result below holds under every fragmentation. -/

namespace RemoteFileIO

/-- What a `send` call delivers: the whole message, its first `k` bytes, or nothing (-1). -/
inductive SendCut
  | whole
  | part (k : Nat)
  | fail
  deriving DecidableEq

/-- The transport's choices: what a `recv` at each stream position and the `i`-th `send` deliver. -/
structure Link where
  recvSeg : Nat → Option Nat
  sendCut : Nat → SendCut

/-- The session socket: the client's bytes, how many are consumed, and what was sent back. -/
structure Conn where
  stream : Bytes
  pos : Nat
  wire : Bytes
  sends : Nat

structure Recv where
  rv : Int
  got : Bytes
  conn : Conn

/-- `recv(sessfd, p, len, 0)`: 0 at the end of the stream, else -1 or 1 to `len` bytes. -/
def recv (link : Link) (c : Conn) (len : Nat) : Recv :=
  if c.stream.length - c.pos = 0 ∨ len = 0 then ⟨0, [], c⟩
  else match link.recvSeg c.pos with
    | none => ⟨-1, [], c⟩
    | some k =>
      let n := max 1 (min k (min len (c.stream.length - c.pos)))
      ⟨n, (c.stream.drop c.pos).take n, { c with pos := c.pos + n }⟩

def SendCut.deliver : SendCut → Bytes → Bytes
  | .whole, msg => msg
  | .part k, msg => msg.take k
  | .fail, _ => []

/-- `send(sessfd, msg, msg.length, 0)`, whose result every handler ignores. -/
def send (link : Link) (c : Conn) (msg : Bytes) : Conn :=
  { c with wire := c.wire ++ (link.sendCut c.sends).deliver msg, sends := c.sends + 1 }

/-- What the client receives of the messages `ms`, sent from the `i`-th `send` on. -/
def Link.delivered (link : Link) : Nat → List Bytes → Bytes
  | _, [] => []
  | i, m :: ms => (link.sendCut i).deliver m ++ link.delivered (i + 1) ms

theorem Link.delivered_append (link : Link) (i : Nat) (ms : List Bytes) (m : Bytes) :
    link.delivered i (ms ++ [m]) = link.delivered i ms ++ (link.sendCut (i + ms.length)).deliver m := by
  induction ms generalizing i with
  | nil => simp [Link.delivered]
  | cons m' ms ih => simp [Link.delivered, ih, Nat.add_assoc, Nat.add_comm 1]

theorem Link.delivered_of_whole {link : Link} (h : ∀ i, link.sendCut i = .whole) (i : Nat)
    (ms : List Bytes) : link.delivered i ms = ms.flatten := by
  induction ms generalizing i with
  | nil => rfl
  | cons m ms ih => simp [Link.delivered, h, SendCut.deliver, ih]

theorem recv_eof (link : Link) {c : Conn} (len : Nat) (h : c.stream.length ≤ c.pos) :
    recv link c len = ⟨0, [], c⟩ := by
  rw [recv, if_pos (.inl (by omega))]

theorem recv_fail {link : Link} {c : Conn} {len : Nat} (h : c.pos < c.stream.length) (hlen : 0 < len)
    (hk : link.recvSeg c.pos = none) : recv link c len = ⟨-1, [], c⟩ := by
  rw [recv, if_neg (by omega), hk]

theorem recv_some {link : Link} {c : Conn} {len k : Nat} (h : c.pos < c.stream.length)
    (hlen : 0 < len) (hk : link.recvSeg c.pos = some k) :
    ∃ n, 1 ≤ n ∧ n ≤ len ∧ c.pos + n ≤ c.stream.length ∧
      recv link c len = ⟨n, (c.stream.drop c.pos).take n, { c with pos := c.pos + n }⟩ := by
  refine ⟨max 1 (min k (min len (c.stream.length - c.pos))), by omega, by omega, by omega, ?_⟩
  rw [recv, if_neg (by omega), hk]

theorem recv_whole {link : Link} {c : Conn} {len k : Nat} (hk : link.recvSeg c.pos = some k)
    (hlen : len ≤ k) (havail : c.pos + len ≤ c.stream.length) (h0 : 0 < len) :
    recv link c len = ⟨len, (c.stream.drop c.pos).take len, { c with pos := c.pos + len }⟩ := by
  have hn : max 1 (min k (min len (c.stream.length - c.pos))) = len := by omega
  rw [recv, if_neg (by omega), hk]
  simp only [hn]

@[simp] theorem recv_conn_wire (link : Link) (c : Conn) (len : Nat) :
    (recv link c len).conn.wire = c.wire := by
  unfold recv; split
  · rfl
  · split <;> rfl

@[simp] theorem recv_conn_sends (link : Link) (c : Conn) (len : Nat) :
    (recv link c len).conn.sends = c.sends := by
  unfold recv; split
  · rfl
  · split <;> rfl

@[simp] theorem recv_conn_stream (link : Link) (c : Conn) (len : Nat) :
    (recv link c len).conn.stream = c.stream := by
  unfold recv; split
  · rfl
  · split <;> rfl

theorem recv_pos_le (link : Link) {c : Conn} (len : Nat) (h : c.pos ≤ c.stream.length) :
    (recv link c len).conn.pos ≤ c.stream.length := by
  unfold recv; split
  · exact h
  · split
    · exact h
    · dsimp only; omega

/-- Every count a fragmentation may deliver is a link's choice. -/
theorem recv_rv_of_recvSeg {link : Link} {c : Conn} {len n : Nat} (h₁ : 1 ≤ n) (h₂ : n ≤ len)
    (h₃ : c.pos + n ≤ c.stream.length) (hk : link.recvSeg c.pos = some n) :
    (recv link c len).rv = n := by
  rw [recv, if_neg (by omega), hk]
  simp only [Nat.cast_inj]
  omega

structure RecvLoop where
  buf : Block
  currlen : Int
  maxSize : Int
  conn : Conn

def recvStart (buf : Block) (bufSize : Int) (c : Conn) : RecvLoop :=
  ⟨buf, 0, if bufSize < maxMsgLen then bufSize else maxMsgLen, c⟩

/-- One pass: `rv = recv(sessfd, buf + currlen, maxSize, 0); currlen += rv;`, then `maxSize`. -/
def recvOnce (link : Link) (bufSize : Int) (s : RecvLoop) : Except Stop RecvLoop := do
  let r := recv link s.conn (toSizeT s.maxSize)
  let buf ← s.buf.write s.currlen.toNat r.got
  let currlen := toInt32 (s.currlen + r.rv)
  if r.rv < 0 then throw .exit
  let maxSize := if bufSize - currlen < s.maxSize then bufSize - currlen else s.maxSize
  pure ⟨buf, currlen, maxSize, r.conn⟩

/-- `while (currlen < bufSize)`, one unit of fuel a pass: running out of fuel is divergence. -/
def receiveAll (link : Link) (bufSize : Int) : Nat → RecvLoop → Except Stop RecvLoop
  | 0, _ => .error .fuel
  | fuel + 1, s =>
    if s.currlen < bufSize then (recvOnce link bufSize s).bind (receiveAll link bufSize fuel)
    else .ok s

theorem recvOnce_sends_nothing {link : Link} {bufSize : Int} {s s' : RecvLoop}
    (h : recvOnce link bufSize s = .ok s') :
    s'.conn.wire = s.conn.wire ∧ s'.conn.sends = s.conn.sends ∧ s'.conn.stream = s.conn.stream := by
  obtain ⟨buf, -, h⟩ := except_bind_eq_ok h
  split at h
  · cases h
  · cases h; simp

theorem receiveAll_sends_nothing {link : Link} {bufSize : Int} (fuel : Nat) {s s' : RecvLoop}
    (h : receiveAll link bufSize fuel s = .ok s') :
    s'.conn.wire = s.conn.wire ∧ s'.conn.sends = s.conn.sends ∧ s'.conn.stream = s.conn.stream := by
  induction fuel generalizing s with
  | zero => cases h
  | succ fuel ih =>
    rw [receiveAll] at h
    split at h
    · obtain ⟨s₁, h₁, h₂⟩ := except_bind_eq_ok h
      obtain ⟨hw₁, hs₁, ht₁⟩ := recvOnce_sends_nothing h₁
      obtain ⟨hw₂, hs₂, ht₂⟩ := ih h₂
      exact ⟨hw₂.trans hw₁, hs₂.trans hs₁, ht₂.trans ht₁⟩
    · cases h; exact ⟨rfl, rfl, rfl⟩

theorem receiveAll_add_fuel {link : Link} {bufSize : Int} {fuel : Nat} {s : RecvLoop}
    {r : Except Stop RecvLoop} (h : receiveAll link bufSize fuel s = r) (hr : r ≠ .error .fuel)
    (k : Nat) : receiveAll link bufSize (fuel + k) s = r := by
  induction fuel generalizing s with
  | zero => exact absurd h.symm hr
  | succ fuel ih =>
    rw [Nat.add_right_comm, receiveAll]
    rw [receiveAll] at h
    split at h
    · rw [if_pos ‹_›]
      cases hs : recvOnce link bufSize s with
      | error e => rw [hs] at h; exact h
      | ok s' => rw [hs] at h; exact ih h
    · rwa [if_neg ‹_›]

inductive RecvReach (link : Link) (bufSize : Int) (s₀ : RecvLoop) : RecvLoop → Prop
  | start : RecvReach link bufSize s₀ s₀
  | step {s s' : RecvLoop} : RecvReach link bufSize s₀ s → s.currlen < bufSize →
      recvOnce link bufSize s = .ok s' → RecvReach link bufSize s₀ s'

/-- At every pass: the bytes consumed are the buffer's, and `maxSize` is what is still to come. -/
structure RecvInv (c₀ : Conn) (bufSize : Int) (s : RecvLoop) : Prop where
  currlen_nonneg : 0 ≤ s.currlen
  currlen_le : s.currlen ≤ bufSize
  conn_eq : s.conn = { c₀ with pos := c₀.pos + s.currlen.toNat }
  pos_le : c₀.pos + s.currlen.toNat ≤ c₀.stream.length
  size_eq : s.buf.size = bufSize.toNat
  data_eq : s.buf.data = (c₀.stream.drop c₀.pos).take s.currlen.toNat
  maxSize_eq : s.maxSize = min maxMsgLen (bufSize - s.currlen)

section RecvInv

variable {link : Link} {c₀ : Conn} {bufSize : Int} {s : RecvLoop}

theorem recvInv_start (h : 0 ≤ bufSize) (hpos : c₀.pos ≤ c₀.stream.length) :
    RecvInv c₀ bufSize (recvStart ⟨bufSize.toNat, []⟩ bufSize c₀) where
  currlen_nonneg := le_refl 0
  currlen_le := h
  conn_eq := by simp [recvStart]
  pos_le := by simpa [recvStart] using hpos
  size_eq := rfl
  data_eq := by simp [recvStart]
  maxSize_eq := by simp only [recvStart, maxMsgLen]; split <;> omega

theorem RecvInv.pos_eq (hi : RecvInv c₀ bufSize s) : s.conn.pos = c₀.pos + s.currlen.toNat := by
  rw [hi.conn_eq]

theorem RecvInv.stream_eq (hi : RecvInv c₀ bufSize s) : s.conn.stream = c₀.stream := by
  rw [hi.conn_eq]

theorem RecvInv.data_length (hi : RecvInv c₀ bufSize s) : s.buf.data.length = s.currlen.toNat := by
  have := hi.pos_le
  rw [hi.data_eq, List.length_take, List.length_drop]
  omega

theorem recvOnce_of_recv (hi : RecvInv c₀ bufSize s) (hb : bufSize < 2^31) {r : Recv}
    (hr : recv link s.conn (toSizeT s.maxSize) = r) (hrv : 0 ≤ r.rv) (hgot : r.got.length = r.rv.toNat)
    (hfit : s.currlen + r.rv ≤ bufSize) :
    recvOnce link bufSize s = .ok ⟨{ s.buf with data := s.buf.data ++ r.got }, s.currlen + r.rv,
      min maxMsgLen (bufSize - (s.currlen + r.rv)), r.conn⟩ := by
  have hlen := hi.data_length
  have hmax := hi.maxSize_eq
  have hsize := hi.size_eq
  have hnn := hi.currlen_nonneg
  rw [recvOnce, hr, ← hlen, @Block.write_end s.buf r.got (by omega), except_ok_bind,
    @toInt32_of_lt (s.currlen + r.rv) (by omega) (by omega), if_neg (show ¬ r.rv < 0 by omega)]
  simp only [maxMsgLen] at hmax ⊢
  simp only [except_pure, except_ok_bind, Except.ok.injEq, RecvLoop.mk.injEq, true_and, and_true]
  split <;> omega

theorem recvOnce_cases (hi : RecvInv c₀ bufSize s) (hlt : s.currlen < bufSize) (hb : bufSize < 2^31) :
    (c₀.stream.length ≤ s.conn.pos ∧ recvOnce link bufSize s = .ok s) ∨
    (s.conn.pos < c₀.stream.length ∧ link.recvSeg s.conn.pos = none ∧
      recvOnce link bufSize s = .error .exit) ∨
    (s.conn.pos < c₀.stream.length ∧ (link.recvSeg s.conn.pos).isSome ∧
      ∃ s', recvOnce link bufSize s = .ok s' ∧ RecvInv c₀ bufSize s' ∧ s.currlen < s'.currlen) := by
  have hmax : s.maxSize = min 200 (bufSize - s.currlen) := hi.maxSize_eq
  have hm : 0 < toSizeT s.maxSize := by unfold toSizeT; omega
  have hpos := hi.pos_eq
  have hstream := hi.stream_eq
  have hlen := hi.data_length
  have hsize := hi.size_eq
  have hnn := hi.currlen_nonneg
  by_cases heof : c₀.stream.length ≤ s.conn.pos
  · refine .inl ⟨heof, ?_⟩
    rw [recvOnce_of_recv hi hb (recv_eof link _ (by rwa [hstream])) le_rfl rfl (by simp; omega)]
    simp only [List.append_nil, add_zero, ← hi.maxSize_eq]
  have hmore : s.conn.pos < s.conn.stream.length := by rw [hstream]; omega
  right
  cases hk : link.recvSeg s.conn.pos with
  | none =>
    refine .inl ⟨by omega, rfl, ?_⟩
    rw [recvOnce, recv_fail hmore hm hk, ← hlen, @Block.write_end s.buf [] (by simp; omega)]
    rfl
  | some k =>
    obtain ⟨n, hn₁, hn₂, hn₃, hrecv⟩ := recv_some hmore hm hk
    have hnmax : (n : Int) ≤ s.maxSize := by unfold toSizeT at hn₂; omega
    refine .inr ⟨by omega, rfl, _, recvOnce_of_recv hi hb hrecv (by simp) (by simp; omega)
      (by simp only; omega), ?_, by simp only; omega⟩
    have htoNat : (s.currlen + n).toNat = s.currlen.toNat + n := by omega
    refine ⟨by simp only; omega, by simp only; omega, ?_, ?_, hsize, ?_, rfl⟩
    · rw [hi.conn_eq] at hpos ⊢
      simp only [htoNat] at hpos ⊢
      simp only [Conn.mk.injEq, true_and, and_true] at hpos ⊢
      omega
    · simp only [htoNat]; rw [hstream] at hn₃; omega
    · simp only [htoNat, hi.data_eq, hstream, hpos, List.take_add, List.drop_drop]

theorem RecvReach.inv (h0 : 0 ≤ bufSize) (hb : bufSize < 2^31) (hpos : c₀.pos ≤ c₀.stream.length)
    (h : RecvReach link bufSize (recvStart ⟨bufSize.toNat, []⟩ bufSize c₀) s) :
    RecvInv c₀ bufSize s := by
  induction h with
  | start => exact recvInv_start h0 hpos
  | step _ hlt hs ih =>
    rcases recvOnce_cases ih hlt hb with ⟨-, he⟩ | ⟨-, -, he⟩ | ⟨-, -, s', he, hi', -⟩ <;>
      rw [hs] at he <;> cases he
    · exact ih
    · exact hi'

theorem receiveAll_reach {link : Link} {bufSize : Int} {s₀ s₁ s : RecvLoop} {fuel : Nat}
    (hr : RecvReach link bufSize s₀ s₁) (h : receiveAll link bufSize fuel s₁ = .ok s) :
    RecvReach link bufSize s₀ s ∧ bufSize ≤ s.currlen := by
  induction fuel generalizing s₁ with
  | zero => cases h
  | succ fuel ih =>
    rw [receiveAll] at h
    split at h
    · obtain ⟨s₂, hs, h⟩ := except_bind_eq_ok h
      exact ih (hr.step ‹_› hs) h
    · cases h; exact ⟨hr, not_lt.mp ‹_›⟩

/-- A run of `receiveAll` that returns has read the next `bufSize` bytes of the stream. -/
theorem receiveAll_ok {link : Link} {bufSize : Int} {c₀ : Conn} {fuel : Nat} {s : RecvLoop}
    (h0 : 0 ≤ bufSize) (hb : bufSize < 2^31) (hpos : c₀.pos ≤ c₀.stream.length)
    (h : receiveAll link bufSize fuel (recvStart ⟨bufSize.toNat, []⟩ bufSize c₀) = .ok s) :
    s.buf = ⟨bufSize.toNat, (c₀.stream.drop c₀.pos).take bufSize.toNat⟩ ∧
      s.conn = { c₀ with pos := c₀.pos + bufSize.toNat } ∧ c₀.pos + bufSize.toNat ≤ c₀.stream.length := by
  obtain ⟨hr, hle⟩ := receiveAll_reach .start h
  have hi := hr.inv h0 hb hpos
  have hc : s.currlen = bufSize := le_antisymm hi.currlen_le hle
  refine ⟨?_, by rw [hi.conn_eq, hc], by simpa [hc] using hi.pos_le⟩
  calc s.buf = ⟨s.buf.size, s.buf.data⟩ := rfl
    _ = _ := by rw [hi.size_eq, hi.data_eq, hc]

/-- With the buffer's bytes in the stream and no failed `recv`, the loop fills the buffer. -/
theorem receiveAll_fills (hb : bufSize < 2^31) (havail : c₀.pos + bufSize.toNat ≤ c₀.stream.length)
    (hok : ∀ p < c₀.stream.length, (link.recvSeg p).isSome) (fuel : Nat) (hi : RecvInv c₀ bufSize s)
    (hfuel : bufSize - s.currlen < fuel) :
    ∃ s', receiveAll link bufSize fuel s = .ok s' ∧ RecvInv c₀ bufSize s' ∧ s'.currlen = bufSize := by
  induction fuel generalizing s with
  | zero => have := hi.currlen_le; omega
  | succ fuel ih =>
    by_cases hlt : s.currlen < bufSize
    · rw [receiveAll, if_pos hlt]
      rcases recvOnce_cases hi hlt hb with ⟨heof, -⟩ | ⟨hmore, hk, -⟩ | ⟨-, -, s', he, hi', hgt⟩
      · have := hi.pos_eq; have := hi.currlen_nonneg; omega
      · exact absurd (hok _ hmore) (by rw [hk]; decide)
      · rw [he]
        exact ih hi' (by omega)
    · exact ⟨s, by rw [receiveAll, if_neg hlt], hi, by have := hi.currlen_le; omega⟩

/-- With fewer bytes left than the buffer needs, every `recv` returns 0 and the loop never ends. -/
theorem receiveAll_stalls (hb : bufSize < 2^31) (hshort : c₀.stream.length < c₀.pos + bufSize.toNat)
    (hok : ∀ p < c₀.stream.length, (link.recvSeg p).isSome) (fuel : Nat) (hi : RecvInv c₀ bufSize s) :
    receiveAll link bufSize fuel s = .error .fuel := by
  induction fuel generalizing s with
  | zero => rfl
  | succ fuel ih =>
    have hlt : s.currlen < bufSize := by have := hi.pos_le; omega
    rw [receiveAll, if_pos hlt]
    rcases recvOnce_cases hi hlt hb with ⟨-, he⟩ | ⟨hmore, hk, -⟩ | ⟨-, -, s', he, hi', -⟩
    · rw [he]; exact ih hi
    · exact absurd (hok _ hmore) (by rw [hk]; decide)
    · rw [he]; exact ih hi'

theorem receiveAll_payload {payload rest : Bytes} (fuel : Nat) (hlen : payload.length < 2^31)
    (hpos : c₀.pos ≤ c₀.stream.length) (hs : c₀.stream.drop c₀.pos = payload ++ rest)
    (hok : ∀ p < c₀.stream.length, (link.recvSeg p).isSome) (hfuel : payload.length < fuel) :
    ∃ s, receiveAll link payload.length fuel (recvStart ⟨payload.length, []⟩ payload.length c₀) =
      .ok s ∧ s.buf = ⟨payload.length, payload⟩ ∧ s.conn = { c₀ with pos := c₀.pos + payload.length } := by
  have havail : c₀.pos + payload.length ≤ c₀.stream.length := by
    have := congrArg List.length hs
    simp only [List.length_drop, List.length_append] at this
    omega
  obtain ⟨s, he, hi, hfull⟩ := receiveAll_fills (by omega) (by simpa using havail) hok fuel
    (@recvInv_start c₀ payload.length (by omega) hpos) (by simp [recvStart]; omega)
  refine ⟨s, he, ?_, by rw [hi.conn_eq, hfull]; rfl⟩
  have hdata := hi.data_eq
  have hsize := hi.size_eq
  simp only [hfull, Int.toNat_ofNat, hs, List.take_left'] at hdata hsize
  exact congrArg₂ Block.mk hsize hdata

end RecvInv

/-- Under every fragmentation without a failed `recv`, each `recv` asks for at most the room left,
and the loop returns within `bufSize + 1` passes holding the next `bufSize` bytes. -/
theorem receiveAll_reads_exactly (link : Link) (c₀ : Conn) (bufSize : Nat) (hb : bufSize < 2^31)
    (havail : c₀.pos + bufSize ≤ c₀.stream.length)
    (hok : ∀ p < c₀.stream.length, (link.recvSeg p).isSome) :
    (∀ s, RecvReach link bufSize (recvStart ⟨bufSize, []⟩ bufSize c₀) s → s.currlen < bufSize →
      s.maxSize = min maxMsgLen (bufSize - s.currlen) ∧ 0 < s.maxSize ∧
        s.maxSize ≤ bufSize - s.currlen) ∧
    ∃ s, receiveAll link bufSize (bufSize + 1) (recvStart ⟨bufSize, []⟩ bufSize c₀) = .ok s ∧
      s.buf = ⟨bufSize, (c₀.stream.drop c₀.pos).take bufSize⟩ ∧
      s.conn = { c₀ with pos := c₀.pos + bufSize } := by
  have hstart := @recvInv_start c₀ bufSize (by omega) (by omega)
  refine ⟨fun s hs hlt => ?_, ?_⟩
  · have hmax : s.maxSize = min 200 (bufSize - s.currlen) := (hs.inv (by omega) (by omega) (by omega)).maxSize_eq
    exact ⟨hmax, by omega, by omega⟩
  · obtain ⟨s, he, hi, hfull⟩ := receiveAll_fills (by omega) havail hok (bufSize + 1) hstart
      (by simp [recvStart])
    refine ⟨s, he, ?_, by rw [hi.conn_eq, hfull]; rfl⟩
    have hdata := hi.data_eq
    have hsize := hi.size_eq
    simp only [hfull, Int.toNat_ofNat] at hdata hsize
    exact congrArg₂ Block.mk hsize hdata

theorem receiveAll_reads_exactly_three_of_five :
    0 + 3 ≤ [1, 2, 3, 4, 5].length ∧
    (∀ s, RecvReach ⟨fun _ => some 2, fun _ => .whole⟩ 3 (recvStart ⟨3, []⟩ 3 ⟨[1, 2, 3, 4, 5], 0, [], 0⟩) s →
      s.currlen < 3 → s.maxSize = min maxMsgLen (3 - s.currlen) ∧ 0 < s.maxSize ∧
        s.maxSize ≤ 3 - s.currlen) ∧
    ∃ s, receiveAll ⟨fun _ => some 2, fun _ => .whole⟩ 3 (3 + 1)
        (recvStart ⟨3, []⟩ 3 ⟨[1, 2, 3, 4, 5], 0, [], 0⟩) = .ok s ∧
      s.buf = ⟨3, [1, 2, 3]⟩ ∧ s.conn = ⟨[1, 2, 3, 4, 5], 3, [], 0⟩ :=
  ⟨by decide, receiveAll_reads_exactly ⟨fun _ => some 2, fun _ => .whole⟩ ⟨[1, 2, 3, 4, 5], 0, [], 0⟩ 3
    (by decide) (by decide) (by decide)⟩

/-- From a stream with fewer than `bufSize` bytes left, `receiveAll` outlasts every fuel. -/
theorem receiveAll_diverges_on_early_close (link : Link) (c₀ : Conn) (bufSize : Nat)
    (hb : bufSize < 2^31) (hpos : c₀.pos ≤ c₀.stream.length)
    (hshort : c₀.stream.length < c₀.pos + bufSize)
    (hok : ∀ p < c₀.stream.length, (link.recvSeg p).isSome) (fuel : Nat) :
    receiveAll link bufSize fuel (recvStart ⟨bufSize, []⟩ bufSize c₀) = .error .fuel :=
  receiveAll_stalls (by omega) (by simpa using hshort) hok fuel (recvInv_start (by omega) hpos)

theorem receiveAll_diverges_on_early_close_three_of_five :
    0 ≤ [1, 2, 3].length ∧ [1, 2, 3].length < 0 + 5 ∧
    ∀ fuel, receiveAll ⟨fun _ => some 2, fun _ => .whole⟩ 5 fuel
      (recvStart ⟨5, []⟩ 5 ⟨[1, 2, 3], 0, [], 0⟩) = .error .fuel :=
  ⟨by decide, by decide, receiveAll_diverges_on_early_close ⟨fun _ => some 2, fun _ => .whole⟩
    ⟨[1, 2, 3], 0, [], 0⟩ 5 (by decide) (by decide) (by decide) (by decide)⟩

end RemoteFileIO
